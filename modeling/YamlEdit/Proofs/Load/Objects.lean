import Mathlib.Data.List.Nodup
import YamlEdit.Load.Construct
import YamlEdit.Proofs.Agreement
import YamlEdit.Proofs.Value.Store

/-!
# The objects of nodes

Building goes over a graph level by level: an object is made empty, waits, and is filled when
references to its parts are known. So every node has at most one object of its own, which waits or has
been filled (`Housed`); what it holds then is left open here, but that it stays so while references,
scalars and pairs stay.
-/

namespace YamlEdit

/-- Whether a node of this tag is made empty and filled later. -/
def Tag.isContainer : Tag → Bool
  | .seq | .map | .set | .omap | .pairs => true
  | _ => false

namespace Construct

variable {g₀ : Graph} {fit : Builder → Nat → Object → Prop} {b b' : Builder} {past current : List Nat}

/-- A pair of nodes and the references of their objects. -/
def Pairs (b : Builder) (p q : Nat × Nat) : Prop :=
  b.built.lookup p.1 = some q.1 ∧ b.built.lookup p.2 = some q.2

/-- The reference of a pair of objects for a pair of nodes. -/
def Tupled (b : Builder) (p : Nat × Nat) (ref : Nat) : Prop :=
  ∃ q, Pairs b p q ∧ b.store.objects[ref]? = some (.tuple [q.1, q.2])

/-- The object of a node is still empty; its tag is one of a collection. -/
structure Waits (g₀ : Graph) (b : Builder) (i ref : Nat) : Prop where
  object : ∃ o, b.store.objects[ref]? = some o ∧ (o = .list [] ∨ o = .dict [] ∨ o = .set [])
  tagged : ∃ v, g₀.vertex? i = some v ∧ v.tag.isContainer = true

/-- References, scalars and pairs stay. -/
structure Keeps (b b' : Builder) : Prop where
  lookups : ∀ i ref, b.built.lookup i = some ref → b'.built.lookup i = some ref
  leaves : ∀ (ref : Nat) (v : Value), b.store.objects[ref]? = some (.leaf v) →
    b'.store.objects[ref]? = some (.leaf v)
  tuples : ∀ (ref : Nat) (items : List Nat), b.store.objects[ref]? = some (.tuple items) →
    b'.store.objects[ref]? = some (.tuple items)

/-- References and objects stay. -/
structure Grows (b b' : Builder) : Prop where
  lookups : ∀ i ref, b.built.lookup i = some ref → b'.built.lookup i = some ref
  objects : ∀ (ref : Nat) o, b.store.objects[ref]? = some o → b'.store.objects[ref]? = some o

theorem Grows.refl (b : Builder) : Grows b b :=
  ⟨fun _ _ h => h, fun _ _ h => h⟩

theorem Grows.trans {b'' : Builder} (h : Grows b b') (h' : Grows b' b'') : Grows b b'' :=
  ⟨fun i ref l => h'.lookups i ref (h.lookups i ref l),
    fun ref o l => h'.objects ref o (h.objects ref o l)⟩

theorem Grows.keeps (h : Grows b b') : Keeps b b' :=
  ⟨h.lookups, fun ref v => h.objects ref (.leaf v), fun ref items => h.objects ref (.tuple items)⟩

theorem Keeps.hasLeaf (h : Keeps b b') {ref : Nat} (leaf : b.store.HasLeaf ref) :
    b'.store.HasLeaf ref := by
  obtain ⟨v, here⟩ := leaf
  exact ⟨v, h.leaves ref v here⟩

theorem Keeps.pairs (h : Keeps b b') {p q : Nat × Nat} (known : Pairs b p q) : Pairs b' p q :=
  ⟨h.lookups _ _ known.1, h.lookups _ _ known.2⟩

theorem Keeps.tupled (h : Keeps b b') {p : Nat × Nat} {ref : Nat} (known : Tupled b p ref) :
    Tupled b' p ref := by
  obtain ⟨q, pair, here⟩ := known
  exact ⟨q, h.pairs pair, h.tuples ref _ here⟩

theorem Waits.grow (h : Grows b b') {i ref : Nat} (waits : Waits g₀ b i ref) :
    Waits g₀ b' i ref := by
  obtain ⟨⟨o, here, empty⟩, tagged⟩ := waits
  exact ⟨⟨o, h.objects ref o here, empty⟩, tagged⟩

/-! ## States -/

/-- The nodes `past` have had their objects filled, that of `current` is being filled, and others
wait. -/
structure Housed (g₀ : Graph) (fit : Builder → Nat → Object → Prop) (past current : List Nat)
    (b : Builder) : Prop where
  inside : ∀ i ref, b.built.lookup i = some ref → ref < b.store.objects.size
  apart : ∀ i j ref, b.built.lookup i = some ref → b.built.lookup j = some ref → i = j
  filled : ∀ i ref, b.built.lookup i = some ref → i ∉ current ++ b.waiting →
    ∃ o, b.store.objects[ref]? = some o ∧ fit b i o
  waits : ∀ i ∈ current ++ b.waiting, ∃ ref, b.built.lookup i = some ref ∧ Waits g₀ b i ref
  known : ∀ i ∈ past, i < g₀.vertices.size ∧ ∃ ref, b.built.lookup i = some ref
  nodup : (past ++ (current ++ b.waiting)).Nodup

/-- What an object has been filled with stays while references, scalars and pairs stay. -/
def Lasts (fit : Builder → Nat → Object → Prop) : Prop :=
  ∀ b b' i o, Keeps b b' → fit b i o → fit b' i o

theorem vertex_run (i : Nat) (b : Builder) :
    (vertex i).run b = .ok ((b.graph.vertex? i).getD default, b) := rfl

/-- The state with one more object. -/
def Builder.with (b : Builder) (i : Nat) (o : Object) (waiting : List Nat) : Builder :=
  { b with store := (b.store.add o).2, built := (i, (b.store.add o).1) :: b.built, waiting }

theorem lookup_with {i j : Nat} {o : Object} {waiting : List Nat} :
    (b.with i o waiting).built.lookup j =
      if j = i then some b.store.objects.size else b.built.lookup j := by
  show ((i, b.store.objects.size) :: b.built).lookup j = _
  rw [List.lookup_cons]
  by_cases same : j = i
  · rw [if_pos same, same, beq_self_eq_true]
  · rw [if_neg same, beq_false_of_ne same]

/-- With one more object, a node has that or the one that it had. -/
theorem known_with {i j ref : Nat} {o : Object} {waiting : List Nat}
    (known : (b.with i o waiting).built.lookup j = some ref) :
    (j = i ∧ ref = b.store.objects.size) ∨ b.built.lookup j = some ref := by
  rw [lookup_with] at known
  split at known
  · next same => exact .inl ⟨same, (Option.some.inj known).symm⟩
  · exact .inr known

theorem objects_with {i ref : Nat} {o : Object} {waiting : List Nat} :
    (b.with i o waiting).store.objects[ref]? =
      if ref = b.store.objects.size then some o else b.store.objects[ref]? :=
  Array.getElem?_push

theorem size_with {i : Nat} {o : Object} {waiting : List Nat} :
    (b.with i o waiting).store.objects.size = b.store.objects.size + 1 :=
  Array.size_push ..

theorem grows_with {i : Nat} (fresh : b.built.lookup i = none) (o : Object) (waiting : List Nat) :
    Grows b (b.with i o waiting) := by
  refine ⟨?_, ?_⟩
  · intro j ref known
    rw [lookup_with, if_neg, known]
    rintro rfl
    rw [fresh] at known
    cases known
  · intro ref o' here
    have bound := (Array.getElem?_eq_some_iff.mp here).1
    rw [objects_with, if_neg (by omega)]
    exact here

theorem grows_add (b : Builder) (o : Object) : Grows b { b with store := (b.store.add o).2 } := by
  refine ⟨fun _ _ l => l, ?_⟩
  intro ref o' here
  have bound := (Array.getElem?_eq_some_iff.mp here).1
  show (b.store.objects.push o)[ref]? = some o'
  rw [Array.getElem?_push, if_neg (by omega), here]

/-! ## Steps -/

theorem length_le_of_lt {l : List Nat} {n : Nat} (nodup : l.Nodup) (lt : ∀ i ∈ l, i < n) :
    l.length ≤ n := by
  have part : l.Subperm (List.range n) :=
    nodup.subperm fun i hi => List.mem_range.mpr (lt i hi)
  simpa using part.length_le

section

variable (housed : Housed g₀ fit past current b) (lasts : Lasts fit)
include housed

/-- No more nodes have been filled than there are. -/
theorem Housed.length_le : past.length ≤ g₀.vertices.size :=
  length_le_of_lt (List.nodup_append.mp housed.nodup).1 fun i hi => (housed.known i hi).1

theorem Housed.met {i : Nat} (hi : i ∈ past ++ (current ++ b.waiting)) :
    ∃ ref, b.built.lookup i = some ref := by
  rcases List.mem_append.mp hi with filled | waits
  · exact (housed.known i filled).2
  · obtain ⟨ref, known, -⟩ := housed.waits i waits
    exact ⟨ref, known⟩

include lasts

/-- Nothing happens to objects when the graph changes, or when the next of those that wait is taken. -/
theorem Housed.keep {current' : List Nat} (built : b'.built = b.built) (store : b'.store = b.store)
    (same : current' ++ b'.waiting = current ++ b.waiting) : Housed g₀ fit past current' b' := by
  have grows : Grows b b' := by
    refine ⟨?_, ?_⟩
    · intro i ref known
      rw [built, known]
    · intro ref o here
      rw [store, here]
  refine ⟨?_, ?_, ?_, ?_, ?_, same ▸ housed.nodup⟩
  · rw [built, store]
    exact housed.inside
  · rw [built]
    exact housed.apart
  · intro i ref known free
    rw [built] at known
    obtain ⟨o, here, fits⟩ := housed.filled i ref known (same ▸ free)
    exact ⟨o, grows.objects ref o here, lasts _ _ _ _ grows.keeps fits⟩
  · intro i hi
    obtain ⟨ref, known, waits⟩ := housed.waits i (same ▸ hi)
    exact ⟨ref, grows.lookups i ref known, waits.grow grows⟩
  · rw [built]
    exact housed.known

/-- A new object holds what it is for, or waits. -/
theorem Housed.with {i : Nat} (fresh : b.built.lookup i = none) {o : Object} {waiting : List Nat}
    (slot : (waiting = b.waiting ∧ fit b i o) ∨ (waiting = b.waiting ++ [i] ∧
      (o = .list [] ∨ o = .dict [] ∨ o = .set []) ∧
        ∃ v, g₀.vertex? i = some v ∧ v.tag.isContainer = true)) :
    Housed g₀ fit past current (b.with i o waiting) := by
  have grows := grows_with fresh o waiting
  have new : (b.with i o waiting).built.lookup i = some b.store.objects.size := by
    rw [lookup_with, if_pos rfl]
  have object : (b.with i o waiting).store.objects[b.store.objects.size]? = some o := by
    rw [objects_with, if_pos rfl]
  have unmet : i ∉ past ++ (current ++ b.waiting) := by
    intro met
    obtain ⟨ref, known⟩ := housed.met met
    rw [fresh] at known
    cases known
  refine ⟨?_, ?_, ?_, ?_, ?_, ?_⟩
  · intro j ref known
    rw [size_with]
    rcases known_with known with ⟨rfl, rfl⟩ | known
    · exact Nat.lt_succ_self _
    · exact Nat.lt_succ_of_lt (housed.inside j ref known)
  · intro j k ref known known'
    rcases known_with known with ⟨rfl, rfl⟩ | before
    · rcases known_with known' with ⟨rfl, -⟩ | before'
      · rfl
      · exact absurd (housed.inside k _ before') (Nat.lt_irrefl _)
    · rcases known_with known' with ⟨rfl, rfl⟩ | before'
      · exact absurd (housed.inside j _ before) (Nat.lt_irrefl _)
      · exact housed.apart j k ref before before'
  · intro j ref known free
    rcases known_with known with ⟨rfl, rfl⟩ | known
    · rcases slot with ⟨-, fits⟩ | ⟨rfl, -, -⟩
      · exact ⟨o, object, lasts _ _ _ _ grows.keeps fits⟩
      · exact absurd (show j ∈ current ++ (b.waiting ++ [j]) by simp) free
    · have free : j ∉ current ++ b.waiting := by
        intro hj
        refine free ?_
        rcases slot with ⟨rfl, -⟩ | ⟨rfl, -, -⟩
        · exact hj
        · show j ∈ current ++ (b.waiting ++ [i])
          rw [← List.append_assoc]
          exact List.mem_append_left _ hj
      obtain ⟨o', here, fits⟩ := housed.filled j ref known free
      exact ⟨o', grows.objects ref o' here, lasts _ _ _ _ grows.keeps fits⟩
  · intro j hj
    have cases_ : j ∈ current ++ b.waiting ∨ (j = i ∧ waiting = b.waiting ++ [i]) := by
      rcases slot with ⟨rfl, -⟩ | ⟨rfl, -, -⟩
      · exact .inl hj
      · have hj : j ∈ current ++ (b.waiting ++ [i]) := hj
        rw [← List.append_assoc] at hj
        exact (List.mem_append.mp hj).imp id fun last => ⟨List.mem_singleton.mp last, rfl⟩
    rcases cases_ with before | ⟨rfl, more⟩
    · obtain ⟨ref, known, waits⟩ := housed.waits j before
      exact ⟨ref, grows.lookups j ref known, waits.grow grows⟩
    · rcases slot with ⟨same, -⟩ | ⟨-, empty, tagged⟩
      · rw [same] at more
        exact absurd (congrArg List.length more) (by simp)
      · exact ⟨_, new, ⟨o, object, empty⟩, tagged⟩
  · intro j hj
    obtain ⟨bound, ref, known⟩ := housed.known j hj
    exact ⟨bound, ref, grows.lookups j ref known⟩
  · show (past ++ (current ++ waiting)).Nodup
    rcases slot with ⟨rfl, -⟩ | ⟨rfl, -, -⟩
    · exact housed.nodup
    · rw [← List.append_assoc, ← List.append_assoc]
      refine List.nodup_append.mpr ⟨?_, List.nodup_singleton i, ?_⟩
      · rw [List.append_assoc]
        exact housed.nodup
      · rintro j hj k hk rfl
        cases List.mem_singleton.mp hk
        rw [List.append_assoc] at hj
        exact unmet hj

/-- One more object, which is no node's. -/
theorem Housed.add (o : Object) :
    Housed g₀ fit past current { b with store := (b.store.add o).2 } := by
  have grows := grows_add b o
  refine ⟨?_, housed.apart, ?_, ?_, housed.known, housed.nodup⟩
  · intro i ref known
    show ref < (b.store.objects.push o).size
    rw [Array.size_push]
    exact Nat.lt_succ_of_lt (housed.inside i ref known)
  · intro i ref known free
    obtain ⟨o', here, fits⟩ := housed.filled i ref known free
    exact ⟨o', grows.objects ref o' here, lasts _ _ _ _ grows.keeps fits⟩
  · intro i hi
    obtain ⟨ref, known, waits⟩ := housed.waits i hi
    exact ⟨ref, known, waits.grow grows⟩

omit housed in
/-- The object that is being filled gets its content. -/
theorem Housed.replace {i : Nat} (housed : Housed g₀ fit past [i] b) {ref : Nat}
    (known : b.built.lookup i = some ref) {o : Object} (fits : fit b i o) :
    Housed g₀ fit (past ++ [i]) [] { b with store := b.store.replace ref o } := by
  obtain ⟨ref', first, ⟨old, here, empty⟩, v, vertex, -⟩ := housed.waits i (by simp)
  cases known.symm.trans first
  have bound := housed.inside i ref known
  have object : ∀ j : Nat, (b.store.replace ref o).objects[j]? =
      if ref = j then some o else b.store.objects[j]? := by
    intro j
    show (b.store.objects.setIfInBounds ref o)[j]? = _
    simp only [Array.getElem?_setIfInBounds, bound, if_true]
  have others : ∀ j r, b.built.lookup j = some r → j ≠ i →
      (b.store.replace ref o).objects[r]? = b.store.objects[r]? := by
    intro j r known' other
    rw [object, if_neg]
    rintro rfl
    exact other (housed.apart j i ref known' known)
  have stays : ∀ (r : Nat) o', b.store.objects[r]? = some o' →
      o' ≠ .list [] ∧ o' ≠ .dict [] ∧ o' ≠ .set [] →
        (b.store.replace ref o).objects[r]? = some o' := by
    intro r o' there ⟨list, dict, set⟩
    rw [object, if_neg, there]
    rintro rfl
    cases here.symm.trans there
    rcases empty with no | no | no
    · exact list no
    · exact dict no
    · exact set no
  have keeps : Keeps b { b with store := b.store.replace ref o } :=
    ⟨fun _ _ l => l, fun r v leaf => stays r _ leaf ⟨nofun, nofun, nofun⟩,
      fun r items tuple => stays r _ tuple ⟨nofun, nofun, nofun⟩⟩
  have nodup := housed.nodup
  refine ⟨?_, housed.apart, ?_, ?_, ?_, ?_⟩
  · intro j r known'
    show r < (b.store.objects.setIfInBounds ref o).size
    rw [Array.size_setIfInBounds]
    exact housed.inside j r known'
  · intro j r known' free
    by_cases same : j = i
    · subst same
      have place : ref = r := Option.some.inj (known.symm.trans known')
      exact ⟨o, (object r).trans (if_pos place), lasts _ _ _ _ keeps fits⟩
    · obtain ⟨o', there, fits'⟩ := housed.filled j r known' (by simpa [same] using free)
      exact ⟨o', (others j r known' same).trans there, lasts _ _ _ _ keeps fits'⟩
  · intro j hj
    have hj : j ∈ b.waiting := hj
    have other : j ≠ i := by
      rintro rfl
      have apart := (List.nodup_append.mp nodup).2.1
      exact (List.nodup_cons.mp apart).1 hj
    obtain ⟨r, known', ⟨o', there, empty'⟩, tagged⟩ := housed.waits j (List.mem_append_right _ hj)
    exact ⟨r, known', ⟨o', (others j r known' other).trans there, empty'⟩, tagged⟩
  · intro j hj
    rcases List.mem_append.mp hj with before | last
    · exact housed.known j before
    · rw [List.mem_singleton.mp last]
      exact ⟨(Array.getElem?_eq_some_iff.mp vertex).1, ref, known⟩
  · rw [List.nil_append, List.append_assoc]
    exact nodup

end

end Construct

end YamlEdit
