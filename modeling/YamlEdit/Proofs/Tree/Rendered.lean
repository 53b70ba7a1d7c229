import YamlEdit.Proofs.Tree.Marks

/-!
# Spans end with what is written

From its start to its true end a node covers what is written for it: it begins in between, and the last
character shows and is in a token, since the last leaf has its end from one. Some leaves do not have it
from a token that shows (`Node.Loose`): a pair in brackets ends where the next token starts, and so does
a value that is left out; a block scalar may end in the comment of its header.

A pair is also what begins before its start: the editor takes the character before its key for the
brace that it does not have. A dash before a block mapping would be mistaken for one of its own in the
same way, but there is none.
-/

namespace YamlEdit

/-- A leaf that may not end with a token that shows. -/
inductive Node.Loose (s : Text) (n : Node) : Prop
  | blockScalar (kind : n.isBlockScalar = true)
      (shows : ∃ c ∈ s[n.stop.index - 1]?, Span.isBlank c = false)
  | leftOut (kind : n.kind = .scalar) (empty : n.start = n.stop)
  | pair (kind : n.isPair s = true)
  | childless (kind : n.isBlock = true) (none : n.children = [])

/-- What ends with a token, or may not. -/
theorem Node.Ended.renders_or_loose {s : Text} {n : Node} (h : n.Ended s)
    (closed : n.isFlow = true ∨ n.children = []) :
    Renders s n.start.index n.stop.index ∨ n.Loose s := by
  have ends := h.ends
  have collection (kind : n.kind = .sequence ∨ n.kind = .mapping)
      (ends : n.isFlow = true → n.isPair s = false → Renders s n.start.index n.stop.index) :
      Renders s n.start.index n.stop.index ∨ n.Loose s := by
    cases flow : n.isFlow with
    | false =>
      refine .inr (.childless ?_ (closed.resolve_left (by simp [flow])))
      rcases kind with kind | kind <;> simp [isBlock, kind, flow]
    | true =>
      cases pair : n.isPair s with
      | true => exact .inr (.pair pair)
      | false => exact .inl (ends flow pair)
  rw [Node.Ends] at ends
  cases body : n.body with
  | scalar tag text quoting =>
    rw [body] at ends
    dsimp only at ends
    split at ends
    · next block => exact .inr (.blockScalar (by rw [isBlockScalar, body]; exact block) ends.2)
    · exact ends.imp_right fun empty => .leftOut (by rw [Node.kind, body]) empty.2
  | aliasOf name target =>
    rw [body] at ends
    exact .inl ends
  | sequence tag frame items =>
    rw [body] at ends
    exact collection (.inl (by rw [Node.kind, body])) ends
  | mapping tag frame pairs =>
    rw [body] at ends
    exact collection (.inr (by rw [Node.kind, body])) ends

namespace Tree

variable {s : Text} {lenient : Bool} {t : Tree} {n leaf : Node}

/-- What a node covers from its start to its true end. -/
structure Covers (t : Tree) (s : Text) (n : Node) : Prop where
  begins : n.start.index ≤ n.content.index ∨
    n.isPair s = true ∧ n.content.index + 1 = n.start.index
  range : n.start.index ≤ (t.trueEnd n).index
  inside : n.content.index ≤ (t.trueEnd n).index
  ends : ∃ leaf ∈ t.nodes, t.EndsWith n leaf ∧ t.trueEnd n = leaf.stop ∧
    (Renders s n.start.index (t.trueEnd n).index ∨ leaf.Loose s)

theorem EndsWith.closed (ends : t.EndsWith n leaf) : leaf.isFlow = true ∨ leaf.children = [] := by
  induction ends with
  | leaf closed => exact closed
  | last _ _ _ _ ih => exact ih

/-- The last leaf of a node lies in it. -/
theorem EndsWith.start_le (spaced : t.Spaced) (ends : t.EndsWith n leaf) {i : Nat}
    (found : t.node? i = some n) : n.start.index ≤ leaf.start.index := by
  induction ends generalizing i with
  | leaf => exact Nat.le_refl _
  | @last n m leaf c _ last known _ ih =>
    obtain ⟨m', known', le, -⟩ := spaced.inside i n found c (List.mem_of_getLast? last)
    cases known.symm.trans known'
    exact Nat.le_trans le (ih known)

/-- A node begins before its true end, for it begins before its children. -/
theorem content_le_trueEnd (h : compose s lenient = .ok t) {i : Nat} (found : t.node? i = some n)
    (ends : t.EndsWith n leaf) : n.content.index ≤ (t.trueEnd n).index := by
  have lineage := lineage_of_compose h
  rw [trueEnd_of_endsWith lineage found ends]
  cases ends with
  | leaf => exact (ended_of_compose h found).1.inside
  | @last _ m _ c _ last known below =>
    obtain ⟨m', known', parent, -⟩ := lineage.child i n found c (List.mem_of_getLast? last)
    cases known.symm.trans known'
    obtain ⟨q, around, le⟩ := (ended_of_compose h known).2 i parent
    cases found.symm.trans around
    have range := (spaced_of_compose h (EventFeed.inOrder_ofText s)).range c m known
    rw [trueEnd_of_endsWith lineage known below] at range
    exact Nat.le_trans le range.1

/-- What every node of a tree covers. -/
theorem covers_of_compose (h : compose s lenient = .ok t) (hn : n ∈ t.nodes) : t.Covers s n := by
  obtain ⟨i, found⟩ := Array.mem_iff_getElem?.mp hn
  have spaced := spaced_of_compose h (EventFeed.inOrder_ofText s)
  obtain ⟨j, leaf, place, ends, same⟩ := exists_leaf h found
  refine ⟨(ended_of_compose h found).1.begins.behind, (spaced.range i n found).1,
    content_le_trueEnd h found ends, leaf, Array.mem_of_getElem? place, ends, same, ?_⟩
  rw [same]
  exact ((ended_of_compose h place).1.renders_or_loose ends.closed).imp_left fun renders =>
    renders.mono (ends.start_le spaced found)

/-! ### A pair in brackets -/

/-- A mapping that ends with a mapping in braces, with blanks and a comment behind it. -/
def braced : Text :=
  "a: &k {b: c}  # d\n".toList

/-- A pair in brackets. -/
def bracketed : Text :=
  "[a: b]\n".toList

theorem covers_braced : ∃ t n, compose braced = .ok t ∧ n ∈ t.nodes ∧
    n.start.index = 0 ∧ (t.trueEnd n).index = 12 ∧ t.Covers braced n := by
  obtain ⟨t, composed, check⟩ := exists_of_any
    (show (compose braced).toOption.any (fun t => (t.node? 0).any fun n =>
      n.start.index == 0 && (t.trueEnd n).index == 12) = true by decide +kernel)
  obtain ⟨n, place, check⟩ := Option.any_eq_true _ _ |>.mp check
  obtain ⟨start, stop⟩ := Bool.and_eq_true_iff.mp check
  have hn : n ∈ t.nodes := Array.mem_of_getElem? place
  exact ⟨t, n, composed, hn, eq_of_beq start, eq_of_beq stop, covers_of_compose composed hn⟩

/-- The pair starts with its key, and is said to begin with the bracket before it. -/
theorem begins_before_bracketed : ∃ t n, compose bracketed = .ok t ∧ n ∈ t.nodes ∧
    n.start.index = 1 ∧ n.content.index = 0 := by
  obtain ⟨t, composed, check⟩ := exists_of_any
    (show (compose bracketed).toOption.any (fun t => (t.node? 1).any fun n =>
      n.start.index == 1 && n.content.index == 0) = true by decide +kernel)
  obtain ⟨n, place, check⟩ := Option.any_eq_true _ _ |>.mp check
  obtain ⟨start, content⟩ := Bool.and_eq_true_iff.mp check
  exact ⟨t, n, composed, Array.mem_of_getElem? place, eq_of_beq start, eq_of_beq content⟩

end Tree

end YamlEdit
