import YamlEdit.Text.Position
import YamlEdit.Tree.Compose

/-!
# How a tree lies over its text

What composing a text makes of the places of its nodes, as far as changes to the text count on it.
Children lie inside of the collection around them and one behind another, a node leaves what follows
it on its line to itself, and every entry of a block sequence has a dash of its own.
-/

namespace YamlEdit

/-! ## Trees over their texts -/

namespace Tree

/-- The nodes that are written inside of a node, and the node itself. -/
inductive Inside (t : Tree) (n : Node) : Node → Prop
  | self : Inside t n n
  | child {m c : Node} {i : Nat} :
      Inside t n m → i ∈ m.children → t.node? i = some c → Inside t n c

theorem Inside.trans {t : Tree} {n m x : Node} (outer : t.Inside n m) (inner : t.Inside m x) :
    t.Inside n x := by
  induction inner with
  | self => exact outer
  | child _ child found ih => exact ih.child child found

/-- What is left of the line behind a place, with its break, ends before a position, if it holds
nothing but blanks and a comment. -/
def LeavesLine (t : Tree) (stop position : Nat) : Prop :=
  ∀ tail ∈ Text.lineTail? t.text stop, Text.skipBreak t.text tail ≤ position

instance (t : Tree) (stop position : Nat) : Decidable (t.LeavesLine stop position) :=
  inferInstanceAs (Decidable (∀ tail ∈ Text.lineTail? t.text stop, _))

/-- A node that ends before a position, with the rests of the lines behind all nodes inside. -/
structure Before (t : Tree) (n : Node) (position : Nat) : Prop where
  stop : (t.trueEnd n).index ≤ position
  lines : ∀ x, t.Inside n x → t.LeavesLine (t.trueEnd x).index position

/-- The dash of an entry of a sequence, behind the entries that come earlier. -/
structure IsDash (t : Tree) (n c : Node) (earlier : List Nat) (dash : Nat) : Prop where
  opens : Text.isDashAt t.text dash n.content.column = true
  inside : n.start.index ≤ dash
  before : dash < c.start.index
  behind : ∀ i ∈ earlier, ∀ b ∈ t.node? i, (t.trueEnd b).index ≤ dash

/-- A tree that lies over its text as composing lays it out. -/
structure Laid (t : Tree) : Prop where
  /-- Every node is a range of the text. -/
  range : ∀ i, ∀ n ∈ t.node? i,
    n.start.index ≤ (t.trueEnd n).index ∧ (t.trueEnd n).index ≤ t.text.length
  /-- Children lie inside of their parent. -/
  child : ∀ i, ∀ n ∈ t.node? i, ∀ j ∈ n.children, ∃ c ∈ t.node? j,
    c.parent = some i ∧ n.start.index ≤ c.start.index ∧ (t.trueEnd c).index ≤ (t.trueEnd n).index
  /-- Siblings lie one behind another, and none starts in the rest of a line behind an earlier one
  or behind a node inside of that. -/
  order : ∀ i, ∀ n ∈ t.node? i, n.children.Pairwise fun j k =>
    ∀ c ∈ t.node? j, ∀ d ∈ t.node? k, t.Before c d.start.index
  /-- Every entry of a block sequence has its dash behind the entries before it. -/
  dash : ∀ i, ∀ n ∈ t.node? i, n.isFlow = false → ∀ k, ∀ j ∈ n.items[k]?, ∀ c ∈ t.node? j,
    ∃ dash, t.IsDash n c (n.items.take k) dash

theorem Before.child {t : Tree} {n c : Node} {i position : Nat} (h : t.Before n position)
    (inside : i ∈ n.children) (found : t.node? i = some c)
    (ends : (t.trueEnd c).index ≤ (t.trueEnd n).index) : t.Before c position := by
  refine ⟨Nat.le_trans ends h.stop, ?_⟩
  intro x inner
  exact h.lines x ((Inside.self.child inside found).trans inner)

theorem children_of_pairs {n : Node} {p : Nat × Nat} (h : p ∈ n.pairs) :
    n.children = n.pairs.flatMap fun p => [p.1, p.2] := by
  rw [Node.pairs] at h ⊢
  rw [Node.children]
  split at h
  · next body => rw [body]
  · cases h

theorem children_of_items {n : Node} {i : Nat} (h : i ∈ n.items) : n.children = n.items := by
  rw [Node.items] at h ⊢
  rw [Node.children]
  split at h
  · next body => rw [body]
  · cases h

namespace Laid

variable {t : Tree} (laid : t.Laid) {i : Nat} {n : Node} (found : t.node? i = some n)
include laid found

/-- The key of a pair comes before its value, and all of a pair before the pairs behind it. -/
theorem pairs {p : Nat × Nat} (hp : p ∈ n.pairs) :
    (∀ k ∈ t.node? p.1, ∀ v ∈ t.node? p.2, t.Before k v.start.index) ∧
      ∀ q ∈ n.pairs, q ≠ p →
        (∀ v ∈ t.node? p.2, (∀ k ∈ t.node? q.1, t.Before v k.start.index) ∧
          ∀ w ∈ t.node? q.2, t.Before v w.start.index) ∨
        ∀ k ∈ t.node? p.1, ∀ w ∈ t.node? q.2, t.Before w k.start.index := by
  have order := laid.order i n found
  rw [children_of_pairs hp, List.pairwise_flatMap] at order
  obtain ⟨inner, outer⟩ := order
  refine ⟨List.rel_of_pairwise_cons (inner p hp) (List.mem_singleton_self _), ?_⟩
  intro q hq other
  obtain ⟨earlier, later, whole⟩ := List.append_of_mem hp
  rw [whole] at outer hq
  rw [List.pairwise_append, List.pairwise_cons] at outer
  obtain ⟨-, ⟨behind, -⟩, before⟩ := outer
  rcases List.mem_append.mp hq with first | second
  · right
    intro k hk w hw
    exact before q first p List.mem_cons_self q.2 (by simp) p.1 (by simp) w hw k hk
  · left
    have behind := behind q ((List.mem_cons.mp second).resolve_left other)
    intro v hv
    exact ⟨behind p.2 (by simp) q.1 (by simp) v hv, behind p.2 (by simp) q.2 (by simp) v hv⟩

theorem items {j k : Nat} {a b : Nat} (first : n.items[j]? = some a) (second : n.items[k]? = some b)
    (earlier : j < k) : ∀ c ∈ t.node? a, ∀ d ∈ t.node? b, t.Before c d.start.index := by
  have order := laid.order i n found
  rw [children_of_items (List.mem_of_getElem? first)] at order
  obtain ⟨inJ, rfl⟩ := List.getElem?_eq_some_iff.mp first
  obtain ⟨inK, rfl⟩ := List.getElem?_eq_some_iff.mp second
  exact List.pairwise_iff_getElem.mp order j k inJ inK earlier

end Laid

/-! ## Checking a tree -/

/-- The nodes inside of a node, down to some depth. -/
def insideTo (t : Tree) : (depth : Nat) → Node → List Node
  | 0, n => [n]
  | depth + 1, n => n :: (n.children.filterMap t.node?).flatMap (t.insideTo depth)

theorem mem_insideTo {t : Tree} {depth : Nat} {n x : Node} (inside : t.Inside n x)
    (closed : ∀ m ∈ t.insideTo depth n, ∀ i ∈ m.children, ∀ c ∈ t.node? i,
      c ∈ t.insideTo depth n) : x ∈ t.insideTo depth n := by
  induction inside with
  | self => cases depth <;> exact List.mem_cons_self
  | child _ child found ih => exact closed _ ih _ child _ found

/-- `Before`, checked for the nodes inside down to some depth, which have to be all of them. -/
def EndsBefore (t : Tree) (n : Node) (position : Nat) : Prop :=
  (t.trueEnd n).index ≤ position ∧
    (∀ m ∈ t.insideTo t.nodes.size n, ∀ i ∈ m.children, ∀ c ∈ t.node? i,
      c ∈ t.insideTo t.nodes.size n) ∧
    ∀ x ∈ t.insideTo t.nodes.size n, t.LeavesLine (t.trueEnd x).index position

instance (t : Tree) (n : Node) (position : Nat) : Decidable (t.EndsBefore n position) :=
  inferInstanceAs (Decidable (_ ∧ _ ∧ _))

theorem EndsBefore.before {t : Tree} {n : Node} {position : Nat} (h : t.EndsBefore n position) :
    t.Before n position :=
  ⟨h.1, fun _ inside => h.2.2 _ (mem_insideTo inside h.2.1)⟩

/-- `IsDash`, in the order of its fields. -/
def Dashed (t : Tree) (n c : Node) (earlier : List Nat) (dash : Nat) : Prop :=
  Text.isDashAt t.text dash n.content.column = true ∧ n.start.index ≤ dash ∧ dash < c.start.index ∧
    ∀ i ∈ earlier, ∀ b ∈ t.node? i, (t.trueEnd b).index ≤ dash

instance (t : Tree) (n c : Node) (earlier : List Nat) (dash : Nat) :
    Decidable (t.Dashed n c earlier dash) :=
  inferInstanceAs (Decidable (_ ∧ _ ∧ _ ∧ _))

/-- What a laid out tree says of the node at a place. -/
def LaysNode (t : Tree) (i : Nat) (n : Node) : Prop :=
  (n.start.index ≤ (t.trueEnd n).index ∧ (t.trueEnd n).index ≤ t.text.length) ∧
    (∀ j ∈ n.children, (t.node? j).any fun c => c.parent = some i ∧
      n.start.index ≤ c.start.index ∧ (t.trueEnd c).index ≤ (t.trueEnd n).index) ∧
    (n.children.Pairwise fun j k =>
      ∀ c ∈ t.node? j, ∀ d ∈ t.node? k, t.EndsBefore c d.start.index) ∧
    (n.isFlow = false → ∀ k < n.items.length, ∀ j ∈ n.items[k]?, ∀ c ∈ t.node? j,
      ∃ dash < c.start.index, t.Dashed n c (n.items.take k) dash)

instance (t : Tree) (i : Nat) (n : Node) : Decidable (t.LaysNode i n) :=
  inferInstanceAs (Decidable (_ ∧ _ ∧ _ ∧ _))

theorem laid_of_lays {t : Tree} (h : ∀ i < t.nodes.size, ∀ n ∈ t.node? i, t.LaysNode i n) :
    t.Laid := by
  have lays : ∀ i, ∀ n ∈ t.node? i, t.LaysNode i n := by
    intro i n found
    exact h i (Array.getElem?_eq_some_iff.mp found).1 n found
  constructor
  · intro i n found
    exact (lays i n found).1
  · intro i n found j hj
    have child := (lays i n found).2.1 j hj
    rw [Option.any_eq_true] at child
    obtain ⟨c, at', inner⟩ := child
    exact ⟨c, at', by simpa using inner⟩
  · intro i n found
    refine (lays i n found).2.2.1.imp ?_
    intro j k ends c hc d hd
    exact (ends c hc d hd).before
  · intro i n found block k j hj c hc
    have place := (List.getElem?_eq_some_iff.mp hj).1
    obtain ⟨dash, -, opens, inside, before, behind⟩ :=
      (lays i n found).2.2.2 block k place j hj c hc
    exact ⟨dash, opens, inside, before, behind⟩

end Tree

end YamlEdit
