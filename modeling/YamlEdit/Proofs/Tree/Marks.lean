import YamlEdit.Proofs.Tree.Origins

/-!
# The marks of nodes

A node starts where the scanner saw it start, and its other marks are the scanner's too unless the
editor found them in the text: the end of a block scalar, counted from the end of its token, and the
place where a node begins, counted from its start or from the end of its first token. These are what a
reader has where both count alike, so all of them are in a text whose lines end with line feeds.
-/

namespace YamlEdit

/-- A text whose lines end with line feeds, alone or behind a carriage return, without a byte order
mark. -/
structure Text.PlainLines (s : Text) : Prop where
  editor : s.EditorLines
  feeds : ∀ i < s.length, s.endsOtherwise i = false

instance (s : Text) : Decidable s.PlainLines :=
  decidable_of_iff (_ ∧ _) ⟨fun ⟨editor, feeds⟩ => ⟨editor, feeds⟩, fun h => ⟨h.editor, h.feeds⟩⟩

namespace Text.PlainLines

variable {s : Text} {m : Mark}

theorem counts (h : s.PlainLines) {i : Nat} (j : Nat) (whole : splitsBreak s i = false) :
    Span.Counts s j i := by
  refine ⟨fun k _ _ => ?_, fun c hc => h.editor c ?_, whole⟩
  · rcases Nat.lt_or_ge k s.length with inside | behind
    · exact h.feeds k inside
    · rw [endsOtherwise, endsLineAt, List.getElem?_eq_none behind]
      rfl
  · obtain ⟨k, -, -, here⟩ := Span.mem_slice_iff.mp hc
    exact List.mem_of_getElem? here

/-- The column is the distance from the last line break. -/
theorem column (h : s.PlainLines) (reads : m.Reads s) :
    m.column = m.index - s.lineBegin m.index := by
  refine reads.column_eq_iff.mpr fun mark => ?_
  obtain ⟨k, -, -, here⟩ := Span.mem_slice_iff.mp mark
  have plain := h.editor _ (List.mem_of_getElem? here)
  cases plain

end Text.PlainLines

namespace Node.Ended

variable {s : Text} {n : Node}

theorem stop_le (h : n.Ended s) : n.stop.index ≤ s.length := by
  cases block : n.isBlockScalar with
  | false => exact (h.stop block).index
  | true =>
    obtain ⟨x, -, shortens⟩ := h.shortens block
    exact Nat.le_trans shortens.ends shortens.stop.index

/-- Where the mark of the place where a node begins is the reader's. -/
theorem reads_content_iff (h : n.Ended s) : n.content.Reads s ↔
    n.content.index = n.contentFrom ∨ Span.Counts s n.contentFrom n.content.index := by
  obtain ⟨near, inside, from_, found⟩ := h.begins.content
  rw [← from_, ← Span.reads_markAt_iff (Mark.in_iff_reads.mp inside) (Nat.le_trans h.inside h.stop_le),
    ← found]

/-- Where the mark of the end of a block scalar is the reader's. -/
theorem reads_stop_iff (h : n.Ended s) {x : Token} (shortens : n.Shortens s x) :
    n.stop.Reads s ↔ n.stop.index = x.stop.index ∨ Span.Counts s x.stop.index n.stop.index := by
  rw [← Span.reads_markAt_iff (Mark.in_iff_reads.mp shortens.stop) h.stop_le, ← shortens.found]

theorem reads_content (h : n.Ended s) (plain : s.PlainLines) (other : n.isPair s = false) :
    n.content.Reads s :=
  h.reads_content_iff.mpr ((h.begins.whole other).imp_right (plain.counts _))

/-- The end of a block scalar is not inside of a line break, since there is no blank before it. -/
theorem reads_stop (h : n.Ended s) (plain : s.PlainLines) : n.stop.Reads s := by
  cases block : n.isBlockScalar with
  | false => exact Mark.in_iff_reads.mp (h.stop block)
  | true =>
    obtain ⟨x, -, shortens⟩ := h.shortens block
    refine (h.reads_stop_iff shortens).mpr (.inr (plain.counts _ ?_))
    have ends := h.ends
    rw [Node.isBlockScalar] at block
    split at block
    · next body =>
      rw [Node.Ends, body] at ends
      dsimp only at ends
      rw [block, if_pos rfl] at ends
      obtain ⟨-, c, here, shows⟩ := ends
      refine Span.splitsBreak_of_before here ?_
      rintro rfl
      cases shows
    · cases block

end Node.Ended

namespace Tree

variable {s : Text} {lenient : Bool} {t : Tree} {n m leaf : Node}

theorem trueEnd_of_endsWith (lineage : t.Lineage) {i : Nat} (found : t.node? i = some n)
    (ends : t.EndsWith n leaf) : t.trueEnd n = leaf.stop := by
  rw [trueEnd, lastWritten, ends.lastLeaf lineage.later found (Nat.le_add_right _ _)]

theorem EndsWith.exists_node? (ends : t.EndsWith n leaf) {i : Nat} (found : t.node? i = some n) :
    ∃ j, t.node? j = some leaf := by
  induction ends generalizing i with
  | leaf => exact ⟨i, found⟩
  | last _ _ found' _ ih => exact ih found'

/-- Every node ends with a leaf, and so its true end is the end of a node. -/
theorem exists_leaf (h : compose s lenient = .ok t) {i : Nat} (found : t.node? i = some n) :
    ∃ j leaf, t.node? j = some leaf ∧ t.EndsWith n leaf ∧ t.trueEnd n = leaf.stop := by
  obtain ⟨leaf, ends, same⟩ := (spaced_of_compose h (EventFeed.inOrder_ofText s)).leaf i n found
  obtain ⟨j, place⟩ := ends.exists_node? found
  exact ⟨j, leaf, place, ends, same⟩

/-- The marks of a node as a reader has them, and where they are not. -/
structure Reported (t : Tree) (s : Text) (n : Node) : Prop where
  start : n.start.Reads s
  /-- The mark of the place where the node begins is the reader's where counting comes to it. -/
  content : n.content.Reads s ↔
    n.content.index = n.contentFrom ∨ Span.Counts s n.contentFrom n.content.index
  stop : n.isBlockScalar = false → n.stop.Reads s
  /-- So is that of the end of a block scalar, counted from the end of its token. -/
  shortened : n.isBlockScalar = true → ∃ x ∈ (TokenFeed.ofText s).items, n.Shortens s x ∧
    (n.stop.Reads s ↔ n.stop.index = x.stop.index ∨ Span.Counts s x.stop.index n.stop.index)
  trueEnd : ∃ leaf ∈ t.nodes, t.EndsWith n leaf ∧ t.trueEnd n = leaf.stop
  /-- Where lines end with line feeds, all of them are the reader's, but for what is before a pair. -/
  plain : s.PlainLines → ∀ m, m = n.start ∨ m = n.stop ∨ m = t.trueEnd n ∨
    m = n.content ∧ n.isPair s = false →
      m.Reads s ∧ m.column = m.index - s.lineBegin m.index

/-- The marks of every node of a tree. -/
theorem reported_of_compose (h : compose s lenient = .ok t) (hn : n ∈ t.nodes) : t.Reported s n := by
  obtain ⟨i, found⟩ := Array.mem_iff_getElem?.mp hn
  have ended := (ended_of_compose h found).1
  obtain ⟨j, leaf, place, ends, same⟩ := exists_leaf h found
  have start := Mark.in_iff_reads.mp ended.begins.start
  refine ⟨start, ended.reads_content_iff, fun other => Mark.in_iff_reads.mp (ended.stop other), ?_,
    ⟨leaf, Array.mem_of_getElem? place, ends, same⟩, ?_⟩
  · intro block
    obtain ⟨x, hx, shortens⟩ := ended.shortens block
    exact ⟨x, hx, shortens, ended.reads_stop_iff shortens⟩
  · intro plain m hm
    have reads : m.Reads s := by
      rcases hm with rfl | rfl | rfl | ⟨rfl, other⟩
      · exact start
      · exact ended.reads_stop plain
      · rw [same]
        exact (ended_of_compose h place).1.reads_stop plain
      · exact ended.reads_content plain other
    exact ⟨reads, plain.column reads⟩

/-! ### The end of a block scalar -/

/-- A block scalar whose lines end with line feeds. -/
def lineFed : Text :=
  "a: |\n  x\n\nb: &k c\n".toList

/-- A block scalar whose lines end with carriage returns. -/
def returned : Text :=
  "a: |\r  x\r".toList

theorem reported_lineFed : ∃ t n, compose lineFed = .ok t ∧ n ∈ t.nodes ∧ lineFed.PlainLines ∧
    n.isBlockScalar = true ∧ n.stop = ⟨8, 1, 3⟩ ∧ n.stop.Reads lineFed := by
  obtain ⟨t, composed, check⟩ := exists_of_any
    (show (compose lineFed).toOption.any (fun t => (t.node? 2).any fun n =>
      n.isBlockScalar && n.stop == ⟨8, 1, 3⟩) = true by decide +kernel)
  obtain ⟨n, place, check⟩ := Option.any_eq_true _ _ |>.mp check
  obtain ⟨block, stop⟩ := Bool.and_eq_true_iff.mp check
  have hn : n ∈ t.nodes := Array.mem_of_getElem? place
  have plain : lineFed.PlainLines := by decide +kernel
  have reads := ((reported_of_compose composed hn).plain plain n.stop (.inr (.inl rfl))).1
  exact ⟨t, n, composed, hn, plain, block, eq_of_beq stop, reads⟩

/-- There is one line break before the end of the scalar, and the editor says that there are two. -/
theorem misreports_returned : ∃ t n, compose returned = .ok t ∧ n ∈ t.nodes ∧
    n.stop = ⟨8, 2, 3⟩ ∧ ¬ n.stop.Reads returned ∧ Mark.Reads returned ⟨8, 1, 3⟩ := by
  obtain ⟨t, composed, check⟩ := exists_of_any
    (show (compose returned).toOption.any (fun t => (t.node? 2).any fun n =>
      n.stop == ⟨8, 2, 3⟩) = true by decide +kernel)
  obtain ⟨n, place, stop⟩ := Option.any_eq_true _ _ |>.mp check
  have stop := eq_of_beq stop
  have right : Mark.Reads returned ⟨8, 1, 3⟩ := ⟨by decide, by decide, by decide⟩
  refine ⟨t, n, composed, Array.mem_of_getElem? place, stop, fun wrong => ?_, right⟩
  have line := wrong.line
  rw [stop] at line
  exact absurd (line.trans right.line.symm) (by decide)

end Tree

end YamlEdit
