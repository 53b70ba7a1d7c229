import YamlEdit.Proofs.Document.RoundTrip
import YamlEdit.Proofs.Patch.Append

/-!
# The order of new keys

The keys that an assignment adds to a block mapping stand in the order of the new dictionary, unless
the place behind the mapping was inside of a range that was erased: then they stand in the reverse
order. The check does not see it, since equal dictionaries may have their keys in any order.
-/

namespace YamlEdit

namespace Patch

variable {ed : Editing} {s t : Session}

theorem gives_ownKeys {n : Node} {own : List Value} (h : Gives (ownKeys ed n) s own t) :
    own = n.pairs.filterMap (spelledKey? ed) ∧ s = t := by
  rw [ownKeys] at h
  generalize n.pairs = pairs at h
  induction pairs generalizing own s t with
  | nil =>
    rw [List.filterMapM_nil] at h
    obtain ⟨rfl, rfl⟩ := gives_pure.mp h
    exact ⟨rfl, rfl⟩
  | cons p r ih =>
    rw [List.filterMapM_cons] at h
    obtain ⟨key?, _, got, h⟩ := gives_bind.mp h
    obtain ⟨spelled, rfl⟩ := gives_scalarKey got
    rw [List.filterMap_cons, ← spelled]
    cases key? with
    | none => exact ih h
    | some key =>
      obtain ⟨rest, _, got, h⟩ := gives_bind.mp h
      obtain ⟨rfl, rfl⟩ := ih got
      obtain ⟨rfl, rfl⟩ := gives_pure.mp h
      exact ⟨rfl, rfl⟩

/-- A value whose keys a mapping spells out loses none that came from a merge. -/
theorem not_dropsMergedKey {n : Node} {old new : Value} {drops : Bool}
    (spelled : ∀ id entries, old = .dict id entries →
      ∀ e ∈ entries, (n.pairs.filterMap (spelledKey? ed)).any (Value.same e.1) = true)
    (h : Gives (dropsMergedKey ed n old new) s drops t) : drops = false ∧ s = t := by
  have none : ∀ (own : List Value) (entries : List (Value × Value)),
      (∀ e ∈ entries, own.any (Value.same e.1) = true) → droppedKey? own new entries = .ok none := by
    intro own entries inside
    induction entries with
    | nil => rfl
    | cons e r ih =>
      obtain ⟨here, rest⟩ := List.forall_mem_cons.mp inside
      rw [droppedKey?, if_pos here]
      exact ih rest
  unfold dropsMergedKey at h
  split at h
  · next id entries _ =>
    obtain ⟨own, _, got, h⟩ := gives_bind.mp h
    obtain ⟨rfl, rfl⟩ := gives_ownKeys got
    obtain ⟨key?, _, got, h⟩ := gives_bind.mp h
    obtain ⟨found, rfl⟩ := gives_ofLookup.mp got
    obtain ⟨rfl, rfl⟩ := gives_pure.mp h
    rw [none _ _ (spelled id entries rfl)] at found
    cases found
    exact ⟨rfl, rfl⟩
  · obtain ⟨rfl, rfl⟩ := gives_pure.mp h
    exact ⟨rfl, rfl⟩

/-- A block mapping that loses no key from a merge is patched pair by pair. -/
theorem patchNode_patches {n : Node} {tag : Tag} {pairs : List (Nat × Nat)} {old : Value}
    {id : Option Nat} {entries : List (Value × Value)}
    (body : n.body = .mapping tag .block pairs) (nonempty : entries ≠ [])
    (spelled : ∀ id entries, old = .dict id entries →
      ∀ e ∈ entries, (pairs.filterMap (spelledKey? ed)).any (Value.same e.1) = true)
    (h : Gives (patchNode ed n old (.dict id entries)) s ⟨⟩ t) :
    Gives (patchEntries ed (patchAt ed ed.tree.nodes.size) n old (.dict id entries)) s ⟨⟩ t := by
  have mapping : n.kind = .mapping := by
    rw [Node.kind, body]
  have block : n.isFlow = false := by
    rw [Node.isFlow, body]
    rfl
  rw [patchNode] at h
  rw [patchAt] at h
  have some : (Value.dict id entries).isNothing = false := by
    show entries.isEmpty = false
    rwa [List.isEmpty_eq_false_iff]
  rw [mapping, block, Node.isAlias, mapping, some] at h
  dsimp only at h
  rw [if_neg (by decide), if_neg Bool.false_ne_true, if_neg Bool.false_ne_true] at h
  obtain ⟨drops, _, got, h⟩ := gives_bind.mp h
  have pairs : n.pairs = pairs := by
    rw [Node.pairs, body]
  obtain ⟨rfl, rfl⟩ := not_dropsMergedKey (by rwa [pairs]) got
  rw [if_neg Bool.false_ne_true, if_pos (by decide)] at h
  exact h

end Patch

namespace Document

open Patch

variable {d d' : Document} {s t : List Notice}

/-- A document of a block mapping without aliases that spells out all its keys, so that none comes
from a merge. -/
structure Maps (d : Document) (tree : Tree) (root : Node) (pairs : List (Nat × Nat))
    (old : Value) : Prop where
  composed : Tree.compose d.text = .ok tree
  rooted : tree.root? = some root
  body : root.body = .mapping .map .block pairs
  noAlias : tree.hasAlias = false
  loaded : d.value = .ok old
  spelled : ∀ id entries, old = .dict id entries →
    ∀ e ∈ entries, (pairs.filterMap (spelledKey? ⟨tree, d.layout⟩)).any (Value.same e.1) = true

variable {tree : Tree} {root : Node} {pairs : List (Nat × Nat)} {old : Value} {id : Option Nat}
  {entries : List (Value × Value)}

/-- What is written for a dictionary comes from a patch of the mapping, pair by pair. -/
theorem Maps.patches (m : d.Maps tree root pairs old) (nonempty : entries ≠ []) {text : Text}
    (h : Gives (d.uncheckedText tree root old (.dict id entries)) s text t) :
    ∃ before after : Session, before.draft = .ofText tree.text ∧
      Gives (patchEntries ⟨tree, d.layout⟩ (patchAt ⟨tree, d.layout⟩ tree.nodes.size) root old
        (.dict id entries)) before ⟨⟩ after ∧ text = after.draft.text := by
  rw [uncheckedText] at h
  obtain ⟨tag, _, got, h⟩ := gives_bind.mp h
  obtain ⟨same, rfl⟩ := gives_tagOf.mp got
  cases same
  obtain ⟨draft, _, got, h⟩ := gives_bind.mp h
  obtain ⟨after, ran, drafted, -⟩ := Noted.gives_patch.mp got
  obtain ⟨_, _, -, h⟩ := gives_bind.mp h
  rw [m.noAlias, if_neg Bool.false_ne_true] at h
  obtain ⟨rfl, -⟩ := gives_pure.mp h
  have tag : root.tag? = some .map := by
    rw [Node.tag?, m.body]
  rw [rootChanges] at ran
  rw [tag] at ran
  dsimp only [Option.getD_some] at ran
  rw [if_neg (by decide), if_neg (by decide)] at ran
  obtain ⟨_, before, noted, ran⟩ := gives_bind.mp ran
  have noted := gives_note.mp noted
  refine ⟨before, after, by rw [← noted], ?_, by rw [drafted]⟩
  exact patchNode_patches m.body nonempty m.spelled ran

/-- A committed text is what the pass over the pairs of a mapping left, with a line for each new
entry inserted at the append point. The lines stand in the order of the dictionary unless an edit of
that pass replaced the append point, and in the reverse order if one did. -/
def Appends (d d' : Document) (tree : Tree) (root : Node) (pairs : List (Nat × Nat)) (old : Value)
    (id : Option Nat) (entries : List (Value × Value)) : Prop :=
  ∃ (start mid : Session) (chunks : List Text), start.draft = .ofText tree.text ∧
    Gives (patchPairs ⟨tree, d.layout⟩ (patchAt ⟨tree, d.layout⟩ tree.nodes.size) old
      (.dict id entries) entries pairs) start (newEntries ⟨tree, d.layout⟩ pairs entries) mid ∧
    List.Forall₂ (IsEntry ⟨tree, d.layout⟩ root)
      ((newEntries ⟨tree, d.layout⟩ pairs entries).filter (isAdded old)) chunks ∧
    d'.text = withoutTrailingBlanks (mid.draft.insertAll (tree.appendPoint root) chunks).text ∧
    (mid.draft.Within (tree.appendPoint root) →
      (mid.draft.insertAll (tree.appendPoint root) chunks).text =
        mid.draft.text.take (mid.draft.locate (tree.appendPoint root)).toNat ++
          (if mid.draft.Inside (tree.appendPoint root) then chunks.reverse else chunks).flatten ++
          mid.draft.text.drop (mid.draft.locate (tree.appendPoint root)).toNat)

/-- Whether a document is a block mapping without aliases and merges. -/
def isMapped (d : Document) : Bool :=
  match Tree.compose d.text, d.value with
  | .ok tree, .ok old =>
    match tree.root? with
    | some root =>
      match root.body, old with
      | .mapping .map .block pairs, .dict _ entries =>
        !tree.hasAlias && entries.all fun e =>
          (pairs.filterMap (spelledKey? ⟨tree, d.layout⟩)).any (Value.same e.1)
      | _, _ => false
    | none => false
  | _, _ => false

theorem maps_of_isMapped (h : d.isMapped = true) : ∃ tree root pairs old, d.Maps tree root pairs old := by
  rw [isMapped] at h
  split at h
  · next tree old composed loaded =>
    split at h
    · next root rooted =>
      split at h
      · next pairs id entries body =>
        obtain ⟨noAlias, spelled⟩ := Bool.and_eq_true_iff.mp h
        refine ⟨tree, root, pairs, .dict id entries, composed, rooted, body,
          by simpa using noAlias, loaded, ?_⟩
        rintro _ _ ⟨⟩ e he
        exact List.all_eq_true.mp spelled e he
      · cases h
    · cases h
  · cases h

/-! ## A last key that gives way to two -/

/-- The keys of the mapping that a text loads as, as they are shown. -/
def keysOf (s : Text) : Option (List Text) :=
  match loadValue s with
  | .ok (.dict _ entries) => some (entries.map fun e => e.1.literal)
  | _ => none

example : keysOf "{b: 1, a: 2}".toList = some ["'b'".toList, "'a'".toList] := by decide +kernel

/-- A mapping of two keys. -/
def lastKey : Document :=
  { text := "a: 1\nb: 2\n".toList }

/-- The entries that keep the first key of `lastKey` and replace the last one by two. -/
def lastKeyNext : List (Value × Value) :=
  [(.str "a".toList, .int 1), (.str "c".toList, .int 3), (.str "d".toList, .int 4)]

theorem assigned_lastKey :
    lastKey.assigned? (.dict none lastKeyNext) [] = some "a: 1\nd: 4\nc: 3\n".toList := by
  decide +kernel

theorem patched_lastKey :
    ∃ text ∈ lastKey.candidate? (.dict none lastKeyNext) [], Loads text (.dict none lastKeyNext) := by
  refine ⟨"a: 1\nd: 4\nc: 3\n".toList, ?_, loads_iff_check.mpr ?_⟩
  · show _ = some _
    decide +kernel
  · decide +kernel

end Document

end YamlEdit
