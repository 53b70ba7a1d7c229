import YamlEdit.Proofs.Path
import YamlEdit.Proofs.Tree.Compositional
import YamlEdit.Proofs.Tree.Stored

/-!
# Where paths lead in what was loaded

A path can be walked twice: through the tree of a text, where keys are compared by their texts and the
first one counts, and through the objects that the text loads as, where keys are compared by their
values and the last one counts. Where the step at hand is taken from a pair that both agree on, the
reference met in the store is one of the node met in the tree. Such a pair is no merge key, its key is
a number and no value key, and no later pair has the same key. So both walks end at the same place;
and if what is there is usual, it is read as what the node is constructed to.
-/

namespace YamlEdit

namespace Tree

open YamlEdit.Path Construct

variable {t : Tree}

/-- The object that steps lead to from another: a dictionary's value under the constructed key of the
pair, and a list's item at the position. -/
def along (t : Tree) (s : Store) : Nat → List Step → Option Nat
  | ref, [] => some ref
  | ref, .pair _ _ p _ :: r =>
    match s.objects[ref]? with
    | some (.dict entries) => do
      let key ← t.node? p.1
      let k ← (t.construct key).toOption
      along t s (← s.under? entries k) r
    | _ => none
  | ref, .item _ position :: r =>
    match s.objects[ref]? with
    | some (.list items) => do along t s (← items[position]?) r
    | _ => none

/-- A step that means the same in the tree and in what is loaded. -/
inductive Agreed (t : Tree) : Step → Prop
  | pair {m : Node} {before after : List (Nat × Nat)} {p : Nat × Nat} (map : m.tag? = some .map)
      (own : t.isOwnPair p = true) (last : t.LastOwn p after)
      (number : ∀ k ∈ t.node? p.1, ∀ v, t.construct k = .ok v → v.isNan = false)
      (keys : ∀ q ∈ p :: after, t.isOwnPair q = true → ∀ k ∈ (t.node? q.1).bind t.target?,
        k.kind = .scalar ∧ k.tag? ≠ some .value) : Agreed t (.pair m before p after)
  | item {m : Node} {position : Nat} (seq : m.tag? = some .seq) : Agreed t (.item m position)

namespace Stored

variable {h : Graph} {name : Nat → Nat} {b : Construct.Builder} (st : t.Stored h name b)
  {n x : Node} {segment : Segment} {i ref : Nat}
include st

/-- A scalar key is constructed to what its object is read as. -/
theorem key (refers : t.Refers h name b i ref) {k m : Node} (here : t.node? i = some k)
    (target : t.target? k = some m) (scalar : m.kind = .scalar)
    (usual : m.tag? ≠ some .value) :
    ∃ v, t.construct k = .ok v ∧ v.bare = (b.store.read ref).bare ∧ v.IsScalar := by
  have sound := st.ordered.sound
  obtain ⟨m', target', -, led, -⟩ := exists_lead sound (Array.getElem?_eq_some_iff.mp here).1
  rw [here, Option.bind_some, target] at target'
  cases target'
  cases body : m.body with
  | scalar tag text quoting =>
    have usual : tag ≠ .value := by simpa [Node.tag?, body] using usual
    have settled : tag.settled = tag := by
      cases tag <;> first | rfl | exact absurd rfl usual
    obtain ⟨x, reads, object⟩ := st.scalar refers led body
    rw [settled] at reads
    obtain ⟨v, made, same⟩ := construct_scalar sound here led body usual reads
    refine ⟨v, made, ?_, ?_⟩
    · rw [same, Store.read_leaf object, Value.bare_identified]
    · exact Value.isScalar_bare.mp
        (same ▸ Value.isScalar_bare.mpr (Graph.isScalar_of_scalarValue? reads))
  | _ => simp [Node.kind, body] at scalar

/-- The object of a mapping has that of an agreed pair's value under the constructed key. -/
theorem under {m : Node} {before after : List (Nat × Nat)} {p : Nat × Nat}
    (refers : t.Refers h name b i ref) (here : t.node? (t.lead i) = some m)
    (mapping : m.kind = .mapping) (pairs : m.pairs = before ++ p :: after)
    (agreed : t.Agreed (.pair m before p after)) :
    ∃ entries key k ref', b.store.objects[ref]? = some (.dict entries) ∧ t.node? p.1 = some key ∧
      t.construct key = .ok k ∧ b.store.under? entries k = some ref' ∧
      t.Refers h name b p.2 ref' := by
  have sound := st.ordered.sound
  cases agreed with
  | pair map own last number keys =>
    cases body : m.body with
    | mapping tag frame all =>
      obtain rfl : tag = .map := by simpa [Node.tag?, body] using map
      have listed : all = before ++ p :: after := by simpa [Node.pairs, body] using pairs
      obtain ⟨first, refs, object, scalars, parts⟩ := st.pairs refers here body
      rw [listed, List.filter_append, List.filter_cons_of_pos own] at parts
      obtain ⟨front, q, rest, rfl, ⟨refersKey, refersValue⟩, behind⟩ := forall₂_split parts
      -- what an own pair from `p` on has as its key
      have known {q : Nat × Nat} (hq : q ∈ p :: after) (mine : t.isOwnPair q = true) {r : Nat}
          (refers : t.Refers h name b q.1 r) : ∃ key v, t.node? q.1 = some key ∧
            t.construct key = .ok v ∧ v.bare = (b.store.read r).bare ∧ v.IsScalar := by
        have listed : q ∈ m.pairs := pairs ▸ List.mem_append_right _ hq
        have child := (Node.mem_children_of_mem_pairs listed).1
        obtain ⟨key, there⟩ := exists_child sound here child
        obtain ⟨m', target⟩ := exists_childTarget sound here child
        obtain ⟨scalar, usual⟩ := keys q hq mine m' target
        rw [there, Option.bind_some] at target
        obtain ⟨v, made⟩ := st.key refers there target scalar usual
        exact ⟨key, v, there, made⟩
      obtain ⟨key, k, there, made, bare, scalar⟩ := known List.mem_cons_self own refersKey
      refine ⟨_, key, k, q.2, object, there, made, ?_, refersValue⟩
      rw [← List.append_assoc] at scalars ⊢
      refine Store.under?_gather scalars scalar ?_ ?_
      · rw [← Value.same_bare, bare, Value.same_bare]
        have read := scalars q (by simp)
        refine Value.same_self read ?_
        rw [← Value.isNan_bare, ← bare, Value.isNan_bare]
        exact number key there k made
      · intro e he
        obtain ⟨q', hq', refersKey', -⟩ := Graph.mem_of_forall₂ behind he
        obtain ⟨later, mine⟩ := List.mem_filter.mp hq'
        obtain ⟨key', v, there', made', bare', scalar'⟩ :=
          known (List.mem_cons_of_mem p later) mine refersKey'
        have apart := last q' later mine key there key' there' k v made made'
        rw [Value.same_comm scalar, ← Value.same_bare, ← bare', Value.same_bare,
          ← Value.same_comm scalar]
        exact apart
    | _ => simp [Node.kind, body] at mapping

/-- An agreed step leads from the object of a node to one of the node that it leads to. -/
theorem step {step : Step} (takes : t.Takes n segment step x) (agreed : t.Agreed step)
    (here : t.node? i = some n) (refers : t.Refers h name b i ref) :
    ∃ j ref', t.node? j = some x ∧ t.Refers h name b j ref' ∧
      ∀ steps, t.along b.store ref (step :: steps) = t.along b.store ref' steps := by
  have sound := st.ordered.sound
  obtain ⟨m, target, -, led, -⟩ := exists_lead sound (Array.getElem?_eq_some_iff.mp here).1
  rw [here, Option.bind_some] at target
  cases takes with
  | @pair m' _ _ _ _ p target' mapping _ pairs _ _ value =>
    cases target.symm.trans target'
    obtain ⟨entries, key, k, ref', object, there, made, held, refersValue⟩ :=
      st.under refers led mapping pairs agreed
    refine ⟨p.2, ref', value, refersValue, fun steps => ?_⟩
    simp [along, object, there, made, held, Except.toOption]
  | @item m' _ position c target' sequence _ listed value =>
    cases target.symm.trans target'
    cases agreed with
    | item seq =>
      cases body : m.body with
      | sequence tag frame items =>
        obtain rfl : tag = .seq := by simpa [Node.tag?, body] using seq
        have listed : items[position]? = some c := by simpa [Node.items, body] using listed
        obtain ⟨refs, object, parts⟩ := st.items refers led body
        obtain ⟨bound, rfl⟩ := List.getElem?_eq_some_iff.mp listed
        have bound' : position < refs.length := parts.length_eq ▸ bound
        refine ⟨_, refs[position], value, parts.get bound bound', fun steps => ?_⟩
        simp [along, object, bound']
      | _ => simp [Node.kind, body] at sequence

/-- Agreed steps lead from the object of a node to one of the node where they end. -/
theorem walk {path : List Segment} {steps : List Step} (walk : t.Walk n path steps x)
    (agreed : ∀ step ∈ steps, t.Agreed step) (here : t.node? i = some n)
    (refers : t.Refers h name b i ref) :
    ∃ j ref', t.node? j = some x ∧ t.Refers h name b j ref' ∧
      t.along b.store ref steps = some ref' := by
  induction walk generalizing i ref with
  | here n => exact ⟨i, ref, here, refers, rfl⟩
  | next takes _ ih =>
    obtain ⟨first, rest⟩ := List.forall_mem_cons.mp agreed
    obtain ⟨j, ref', there, refers', stepped⟩ := st.step takes first here refers
    obtain ⟨j', ref'', there', refers'', walked⟩ := ih rest there refers'
    exact ⟨j', ref'', there', refers'', (stepped _).trans walked⟩

end Stored

/-- What a node of a usual tree leads to is usual. -/
theorem Usual.usualFrom (usual : t.Usual) (tuples : t.TuplesWithoutNan) {n : Node}
    (ordered : t.Ordered) {i : Nat} (here : t.node? i = some n) : t.UsualFrom n := by
  have led {m : Node} (leads : t.LeadsTo n m) : m ∈ t.nodes ∧ m.isAlias = false := by
    have target {j : Nat} {k : Node} (there : t.node? j = some k)
        (target : t.target? k = some m) : m ∈ t.nodes ∧ m.isAlias = false := by
      obtain ⟨j', m', target', there', alone⟩ := exists_target ordered.sound there
      cases target.symm.trans target'
      exact ⟨Array.mem_of_getElem? there', alone⟩
    cases leads with
    | self aim => exact target here aim
    | child _ _ aim =>
      obtain ⟨k, there, aim⟩ := Option.bind_eq_some_iff.mp aim
      exact target there aim
  refine ⟨fun m leads => usual.valueless m (led leads).1 (led leads).2,
    fun m leads => usual.singles m (led leads).1, fun m leads a inside aliases target => ?_,
    fun m leads => usual.keys m (led leads).1, fun m leads => tuples m (led leads).1⟩
  by_cases listed : a ∈ t.nodes
  · exact usual.apart a listed aliases m target inside
  · cases inside with
    | self => exact listed (led leads).1
    | child _ _ found => exact listed (Array.mem_of_getElem? found)

/-- A mapping, with a merge key that brings a key which it has already, and an alias of it. -/
def besideMerge : Text :=
  "- &a {l: 0, k: [.nan], <<: {k: 1}}\n- *a\n".toList

/-- What is checked of the nodes that the path `1.k` passes in `besideMerge`. -/
def checksBesideMerge (t : Tree) (root m x : Node) : Bool :=
  (t.nodes.all fun n => n.tag? != some .value && t.isUsualAt n && t.holdsSingles n) &&
    (!root.isAlias && root.kind == .sequence && root.tag? == some .seq && root.items == [1, 11]) &&
    (((t.node? 11).bind t.target?) == some m && m.kind == .mapping && m.tag? == some .map &&
      m.pairs == [(2, 3), (4, 5), (7, 8)] && t.node? 5 == some x) &&
    (!t.spells "k".toList (2, 3) && t.spells "k".toList (4, 5) && t.isOwnPair (4, 5) &&
      !t.isOwnPair (7, 8) && (t.made? 4).all (!·.isNan) &&
      ((t.node? 4).bind t.target?).all fun k => k.kind == .scalar && k.tag? != some .value)

/-- A mapping with one key twice. -/
def keyTwice : Text :=
  "a: 1\na: 2\n".toList

end Tree

end YamlEdit
