import YamlEdit.Document
import YamlEdit.Proofs.Path

/-!
# Looking up by a path

In a text that composes, a path leads to a node of the tree or to none, and remarks are read and
written accordingly, unless the path comes to a segment that spells no number where one is wanted:
then looking up, reading and writing all fail, with the error of a malformed literal.
-/

namespace YamlEdit

namespace Tree

variable {t : Tree} {n : Node} {path : List Segment}

/-- A path that comes, from the document's node, to a segment which is refused. -/
def Misleads (t : Tree) (path : List Segment) : Prop :=
  ∃ root, t.root? = some root ∧ t.Stumbles root path

/-- Only segments that spell no number are refused. -/
theorem Stumbles.exists_segment (h : t.Stumbles n path) :
    ∃ segment ∈ path, Path.SpellsNothing segment ∨ Path.NamesNothing segment := by
  induction h with
  | here refuses =>
    obtain ⟨m, -, wrong⟩ := refuses
    exact ⟨_, List.mem_cons_self, wrong.imp And.right And.right⟩
  | next _ _ ih =>
    obtain ⟨segment, listed, wrong⟩ := ih
    exact ⟨segment, List.mem_cons_of_mem _ listed, wrong⟩

theorem Walk.mem {x : Node} {steps : List Path.Step} (walk : t.Walk n path steps x)
    (here : n ∈ t.nodes) : x ∈ t.nodes := by
  induction walk with
  | here => exact here
  | next takes _ ih =>
    obtain ⟨j, there⟩ := takes.node
    exact ih (Array.mem_of_getElem? there)

theorem find_eq_error (sound : Sound t.nodes) {e : LoadError} : t.find path = .error e ↔
    t.Misleads path ∧ e = .literal .malformed := by
  rw [find, Misleads]
  cases rooted : t.root? with
  | none => simp
  | some root => simp [follow_eq_error sound rooted]

end Tree

namespace Document

variable {d : Document} {tree : Tree} {path : List Segment}

/-- What is found at a path decides what is read and written there. -/
theorem remarks_of_find (composed : Tree.compose d.text = .ok tree) (path : List Segment)
    (remark : Text) :
    d.getRemark path = (do
      match ← tree.find path with
      | some n => return Remark.get tree n
      | none => return []) ∧
    d.setRemark path remark = (do
      match ← tree.find path with
      | some n => return some { d with text := Remark.set tree n remark }
      | none => return none) := by
  rw [getRemark, setRemark, composed]
  exact ⟨rfl, rfl⟩

/-- Looking up by a path, and reading and writing a remark there, answer in every tree unless the path
misleads, and then all three fail. What is found is where a walk along the path ends. -/
theorem lookup_answers_or_misleads (composed : Tree.compose d.text = .ok tree)
    (path : List Segment) (remark : Text) :
    (tree.Misleads path ∧ tree.find path = .error (.literal .malformed) ∧
      d.getRemark path = .error (.literal .malformed) ∧
      d.setRemark path remark = .error (.literal .malformed)) ∨
    (¬ tree.Misleads path ∧ ∃ found, tree.find path = .ok found ∧
      (∀ n, found = some n ↔ ∃ root steps, tree.root? = some root ∧ tree.Walk root path steps n) ∧
      (∀ n ∈ found, n ∈ tree.nodes) ∧
      d.getRemark path = .ok (found.elim [] (Remark.get tree)) ∧
      d.setRemark path remark =
        .ok (found.map fun n => { d with text := Remark.set tree n remark })) := by
  have sound := Tree.sound_of_compose composed
  obtain ⟨read, written⟩ := remarks_of_find composed path remark
  cases looked : tree.find path with
  | error e =>
    obtain ⟨misleads, rfl⟩ := (Tree.find_eq_error sound).mp looked
    rw [looked] at read written
    exact .inl ⟨misleads, rfl, read, written⟩
  | ok found =>
    have leads (n : Node) : found = some n ↔
        ∃ root steps, tree.root? = some root ∧ tree.Walk root path steps n := by
      rw [← Tree.find_eq_some sound, looked, Except.ok.injEq]
    rw [looked] at read written
    refine .inr ⟨?_, found, rfl, leads, ?_, ?_, ?_⟩
    · intro misleads
      have failed := (Tree.find_eq_error sound).mpr ⟨misleads, rfl⟩
      rw [looked] at failed
      cases failed
    · intro n hn
      obtain ⟨root, steps, rooted, walk⟩ := (leads n).mp hn
      exact walk.mem (Array.mem_of_getElem? rooted)
    · rw [read]
      cases found <;> rfl
    · rw [written]
      cases found <;> rfl

/-! ## A superscript digit as a position -/

/-- A document with a sequence. -/
def oneItem : Document :=
  { text := "- a\n".toList }

theorem lookup_answers_or_misleads_oneItem : ∃ tree, Tree.compose oneItem.text = .ok tree ∧
    ∃ n ∈ tree.nodes, tree.find (Path.split "0".toList) = .ok (some n) ∧
      ∃ root steps, tree.root? = some root ∧ tree.Walk root (Path.split "0".toList) steps n := by
  obtain ⟨tree, composed, check⟩ := exists_of_any
    (show (Tree.compose oneItem.text).toOption.any (fun t =>
      (t.find (Path.split "0".toList)).toOption.any Option.isSome) = true by decide +kernel)
  obtain ⟨found, looked, some_⟩ := exists_of_any check
  obtain ⟨n, rfl⟩ := Option.isSome_iff_exists.mp some_
  refine ⟨tree, composed, ?_⟩
  rcases lookup_answers_or_misleads composed (Path.split "0".toList) "b".toList with
    ⟨-, failed, -⟩ | ⟨-, found, looked', leads, inside, -⟩
  · rw [looked] at failed
    cases failed
  · rw [looked] at looked'
    cases looked'
    exact ⟨n, inside n rfl, looked, (leads n).mp rfl⟩

/-- A superscript two counts as a digit, but it is no decimal one: it is an error and not a miss. -/
theorem fails_superscript : ∃ tree, Tree.compose oneItem.text = .ok tree ∧
    (¬ ∃ found, tree.find (Path.split "²".toList) = .ok found) ∧
    (¬ ∃ remark, oneItem.getRemark (Path.split "²".toList) = .ok remark) ∧
    ¬ ∃ changed, oneItem.setRemark (Path.split "²".toList) "b".toList = .ok changed := by
  obtain ⟨tree, composed, check⟩ := exists_of_any
    (show (Tree.compose oneItem.text).toOption.any (fun t =>
      !(t.find (Path.split "²".toList)).isOk) = true by decide +kernel)
  have failed : ¬ ∃ found, tree.find (Path.split "²".toList) = .ok found := by
    rintro ⟨found, looked⟩
    rw [looked] at check
    cases check
  refine ⟨tree, composed, failed, ?_, ?_⟩
  · rintro ⟨remark, read⟩
    rw [(remarks_of_find composed _ "b".toList).1, bind_eq_ok] at read
    obtain ⟨found, looked, -⟩ := read
    exact failed ⟨found, looked⟩
  · rintro ⟨changed, written⟩
    rw [(remarks_of_find composed _ "b".toList).2, bind_eq_ok] at written
    obtain ⟨found, looked, -⟩ := written
    exact failed ⟨found, looked⟩

end Document

end YamlEdit
