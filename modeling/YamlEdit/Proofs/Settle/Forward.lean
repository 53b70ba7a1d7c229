import YamlEdit.Proofs.Patch.Spares
import YamlEdit.Proofs.Tree.Brackets
import YamlEdit.Proofs.Tree.Extent

/-!
# Settling goes forward

One round of settling goes through the text once, from its start to its end: whatever it splices
starts at or behind the end of all that was spliced before. That is what a draft asks of the edits
that it makes at once.

A node is settled in a range of its own (`reach`). It starts where a whole new text for the node
would be put, which is behind the key or the dash of the node, and ends with the node, or where new
text follows the node if that is a block collection: nested mappings with overrides share this place,
as the last child of a block collection ends with it. A collection in brackets holds no block
collections, so there nothing is put behind the bracket. Each function of the round gets one lemma
that says between which positions it splices, and the ranges of siblings are put together along
the children.
-/

namespace YamlEdit

namespace Draft

/-- Edits that a draft makes at once, in the order in which they come. -/
structure Forward (length : Nat) (edits : List Splice) : Prop where
  ranges : ∀ e ∈ edits, 0 ≤ e.start ∧ e.start ≤ e.stop ∧ e.stop ≤ length
  order : edits.Pairwise fun e f => e.start ≤ f.start
  /-- No character is replaced twice. -/
  apart : edits.Pairwise fun e f =>
    ∀ pos, ¬ ((e.start ≤ pos ∧ pos < e.stop) ∧ (f.start ≤ pos ∧ pos < f.stop))
  /-- Nothing is inserted inside of a range that is replaced. -/
  outside : ∀ e ∈ edits, ∀ f ∈ edits, e.start = e.stop → ¬ (f.start < e.start ∧ e.start < f.stop)
  /-- No text is replaced that ends where something was inserted before. -/
  ends : edits.Pairwise fun e f => e.start = e.stop → f.start < f.stop → f.stop ≠ e.start

/-- Edits one behind another, between two positions. -/
inductive Run : Int → List Splice → Int → Prop
  | nil {low high : Int} (room : low ≤ high) : Run low [] high
  | cons {low high : Int} {e : Splice} {r : List Splice} (begins : low ≤ e.start)
    (range : e.start ≤ e.stop) (rest : Run e.stop r high) : Run low (e :: r) high

namespace Run

variable {low mid high : Int} {edits more : List Splice}

theorem le (h : Run low edits high) : low ≤ high := by
  induction h with
  | nil room => exact room
  | cons begins range _ ih => omega

theorem mono {low' high' : Int} (h : Run low edits high) (before : low' ≤ low)
    (behind : high ≤ high') : Run low' edits high' := by
  induction h generalizing low' with
  | nil room => exact .nil (by omega)
  | cons begins range _ ih => exact .cons (by omega) range (ih (Int.le_refl _) behind)

theorem append (h : Run low edits mid) (h' : Run mid more high) : Run low (edits ++ more) high := by
  induction h with
  | nil room => exact h'.mono room (Int.le_refl _)
  | cons begins range _ ih => exact .cons begins range (ih h')

theorem inside (h : Run low edits high) :
    ∀ e ∈ edits, low ≤ e.start ∧ e.start ≤ e.stop ∧ e.stop ≤ high := by
  induction h with
  | nil _ => exact List.forall_mem_nil _
  | cons begins range rest ih =>
    refine List.forall_mem_cons.mpr ⟨⟨begins, range, rest.le⟩, fun e he => ?_⟩
    have inner := ih e he
    omega

theorem pairwise (h : Run low edits high) : edits.Pairwise fun e f => e.stop ≤ f.start := by
  induction h with
  | nil _ => exact .nil
  | cons _ _ rest ih => exact .cons (fun f hf => (rest.inside f hf).1) ih

/-- Edits one behind another can be made at once. -/
theorem forward {length : Nat} (h : Run 0 edits length) : Forward length edits := by
  have range : ∀ e ∈ edits, e.start ≤ e.stop := fun e he => (h.inside e he).2.1
  have weaken : ∀ {R : Splice → Splice → Prop},
      (∀ e ∈ edits, ∀ f ∈ edits, e.stop ≤ f.start → R e f) → edits.Pairwise R :=
    fun weaker => h.pairwise.imp_of_mem fun he hf => weaker _ he _ hf
  refine ⟨h.inside, weaken ?_, weaken ?_, ?_, weaken ?_⟩
  · intro e he f _ before
    have := range e he
    omega
  · intro e _ f _ before pos
    omega
  · refine List.Pairwise.forall_of_forall_of_flip ?_ (weaken ?_) (weaken ?_)
    · intro e _ _
      omega
    · intro e _ f _ before empty
      omega
    · intro e _ f _ before empty
      omega
  · intro e _ f _ before empty filled
    omega

end Run

end Draft

open Draft (Run)

/-! ## Trees over their texts -/

namespace Tree

/-- An entry of a sequence has a dash at the column of the sequence, behind the earlier entries and not
in the blanks and the comment that follow one of them on its line. -/
def OwnsDash (t : Tree) (n c : Node) (earlier : List Nat) : Prop :=
  ∃ dash < c.start.index, Text.isDashAt t.text dash n.content.column = true ∧
    n.start.index ≤ dash ∧ ∀ m ∈ earlier, ∀ b ∈ t.node? m, (t.trueEnd b).index ≤ dash ∧
      ∀ tail ∈ Text.lineTail? t.text (t.trueEnd b).index, tail ≤ dash

instance (t : Tree) (n c : Node) (earlier : List Nat) : Decidable (t.OwnsDash n c earlier) :=
  inferInstanceAs (Decidable (∃ dash < c.start.index, _))

/-- A tree whose nodes are written one behind another: children inside of the node around them and in
their order, and nothing in the blanks and the comment that follow a node on its line, neither the
next node nor the dash of the next entry. -/
structure Successive (t : Tree) : Prop where
  range : ∀ i, ∀ n ∈ t.node? i,
    n.start.index ≤ (t.trueEnd n).index ∧ (t.trueEnd n).index ≤ t.text.length
  inside : ∀ i, ∀ n ∈ t.node? i, ∀ j ∈ n.children, ∀ c ∈ t.node? j,
    n.start.index ≤ c.start.index ∧ (t.trueEnd c).index ≤ (t.trueEnd n).index
  order : ∀ i, ∀ n ∈ t.node? i, n.children.Pairwise fun j k =>
    ∀ c ∈ t.node? j, ∀ d ∈ t.node? k, (t.trueEnd c).index ≤ d.start.index ∧
      ∀ tail ∈ Text.lineTail? t.text (t.trueEnd c).index, tail ≤ d.start.index
  dash : ∀ i, ∀ n ∈ t.node? i, n.isFlow = false → ∀ k, ∀ j ∈ n.items[k]?, ∀ c ∈ t.node? j,
    t.OwnsDash n c (n.items.take k)

variable {t : Tree} {n : Node} {i : Nat}

theorem appendPoint_le {position : Nat} (behind : (t.trueEnd n).index ≤ position)
    (tails : ∀ tail ∈ Text.lineTail? t.text (t.trueEnd n).index, tail ≤ position) :
    t.appendPoint n ≤ position := by
  rw [appendPoint]
  cases found : Text.lineTail? t.text (t.trueEnd n).index with
  | none => exact behind
  | some tail => exact tails tail found

theorem le_appendPoint (inside : (t.trueEnd n).index ≤ t.text.length) :
    (t.trueEnd n).index ≤ t.appendPoint n := by
  rw [appendPoint, Text.lineTail?]
  cases found : Text.afterComment? (t.text.drop (t.trueEnd n).index) with
  | none => exact Nat.le_refl _
  | some rest =>
    have short := Text.length_le_of_afterComment? found
    rw [List.length_drop] at short
    show _ ≤ t.text.length - rest.length
    omega

theorem appendPoint_le_length (inside : (t.trueEnd n).index ≤ t.text.length) :
    t.appendPoint n ≤ t.text.length := by
  rw [appendPoint, Text.lineTail?]
  cases Text.afterComment? (t.text.drop (t.trueEnd n).index) with
  | none => exact inside
  | some rest => exact Nat.sub_le ..

/-- In a tree that is laid out, only the dashes may stand in what follows a node on its line. -/
theorem Laid.successive (laid : t.Laid)
    (dashes : ∀ i < t.nodes.size, ∀ n ∈ t.node? i, n.isFlow = false → ∀ k < n.items.length,
      ∀ j ∈ n.items[k]?, ∀ c ∈ t.node? j, t.OwnsDash n c (n.items.take k)) : t.Successive := by
  refine ⟨laid.range, ?_, ?_, ?_⟩
  · intro i n here j hj c hc
    obtain ⟨m, found, -, inside⟩ := laid.child i n here j hj
    cases found.symm.trans hc
    exact inside
  · intro i n here
    refine (laid.order i n here).imp fun before c hc d hd => ?_
    have before := before c hc d hd
    refine ⟨before.stop, fun tail found => ?_⟩
    exact Nat.le_trans (Text.le_skipBreak t.text tail) (before.lines c .self tail found)
  · intro i n here block k j hj c hc
    have inside := (Array.getElem?_eq_some_iff.mp here).1
    have place := (List.getElem?_eq_some_iff.mp hj).1
    exact dashes i inside n here block k place j hj c hc

section

variable (later : ∀ i n, t.node? i = some n → ∀ c ∈ n.children, i < c)
include later

theorem exists_endsWith (children : ∀ i n, t.node? i = some n → ∀ c ∈ n.children, (t.node? c).isSome)
    (here : t.node? i = some n) : ∃ leaf, t.EndsWith n leaf := by
  induction left : t.nodes.size - i using Nat.strong_induction_on generalizing i n with
  | h left' ih =>
    by_cases closed : n.isFlow = true ∨ n.children = []
    · exact ⟨n, .leaf closed⟩
    · rw [not_or] at closed
      have last := List.getLast?_eq_some_getLast closed.2
      have listed := List.getLast_mem closed.2
      obtain ⟨m, found⟩ := Option.isSome_iff_exists.mp (children i n here _ listed)
      have further := later i n here _ listed
      have inside := (Array.getElem?_eq_some_iff.mp found).1
      obtain ⟨leaf, ends⟩ := ih _ (by omega) found rfl
      exact ⟨leaf, .last (by simpa using closed.1) last found ends⟩

/-- A block collection ends with its last child. -/
theorem trueEnd_of_last
    (children : ∀ i n, t.node? i = some n → ∀ c ∈ n.children, (t.node? c).isSome)
    (here : t.node? i = some n) (block : n.isFlow = false) {c : Nat} {m : Node}
    (last : n.children.getLast? = some c) (found : t.node? c = some m) :
    t.trueEnd n = t.trueEnd m := by
  obtain ⟨leaf, ends⟩ := exists_endsWith later children found
  have whole : t.EndsWith n leaf := .last block last found ends
  rw [trueEnd, trueEnd, lastWritten, lastWritten,
    whole.lastLeaf later here (Nat.le_add_right _ _),
    ends.lastLeaf later found (Nat.le_add_right _ _)]

end

end Tree

namespace Patch

/-! ## Splices between two positions -/

/-- Sessions of which the second made further splices, one behind another between two positions. -/
def Adds (low high : Int) (s t : Session) : Prop :=
  ∃ more, t.draft.edits = s.draft.edits ++ more ∧ Run low more high

theorem Adds.mono {low high low' high' : Int} {s t : Session} (h : Adds low high s t)
    (before : low' ≤ low) (behind : high ≤ high') : Adds low' high' s t := by
  obtain ⟨more, edits, run⟩ := h
  exact ⟨more, edits, run.mono before behind⟩

theorem Adds.trans {low mid high : Int} {s t u : Session} (h : Adds low mid s t)
    (h' : Adds mid high t u) : Adds low high s u := by
  obtain ⟨more, edits, run⟩ := h
  obtain ⟨more', edits', run'⟩ := h'
  exact ⟨more ++ more', by rw [edits', edits, List.append_assoc], run.append run'⟩

theorem Adds.refl {low high : Int} (room : low ≤ high) (s : Session) : Adds low high s s :=
  ⟨[], (List.append_nil _).symm, .nil room⟩

/-- Between a position and itself there is nothing but insertions. -/
theorem tolerant_adds (position : Int) : Tolerant (Adds position position)
    (fun start stop => start = position ∧ stop = position) AnyLetter where
  refl := Adds.refl (Int.le_refl _)
  trans := fun _ _ _ => Adds.trans
  note := fun s _ _ => Adds.refl (s := s) (Int.le_refl _)
  splice := by
    rintro s start stop fragment ⟨rfl, rfl⟩ -
    exact ⟨[_], Draft.edits_splice .., .cons (Int.le_refl _) (Int.le_refl _) (.nil (Int.le_refl _))⟩

section

variable {α β : Type} {low mid high : Int}

theorem adds_mono {x : Patch α} {low' high' : Int} (h : Follows (Adds low high) x)
    (before : low' ≤ low) (behind : high ≤ high') : Follows (Adds low' high') x :=
  ⟨fun s => (h.run s).mono before behind⟩

/-- A chain whose rest may count on all that the first step did. -/
theorem adds_resume {x : Patch α} {f : α → Patch β} (first : Follows (Adds low high) x)
    (next : ∀ a s t, Gives x s a t → Adds low high s ((f a).run.run t).2) :
    Follows (Adds low high) (x >>= f) := by
  refine ⟨fun s => ?_⟩
  have before := first.run s
  rw [run_chain]
  rcases ran : x.run.run s with ⟨e | a, t⟩
  · rw [ran] at before
    exact before
  · exact next a s t ran

theorem adds_chain {x : Patch α} {f : α → Patch β} (first : Follows (Adds low mid) x)
    (room : mid ≤ high) (next : ∀ a s t, Gives x s a t → Follows (Adds mid high) (f a)) :
    Follows (Adds low high) (x >>= f) :=
  adds_resume (adds_mono first (Int.le_refl _) room) fun a s t got =>
    (first.gives got).trans ((next a s t got).run t)

theorem adds_bind {x : Patch α} {f : α → Patch β} (first : Follows (Adds low mid) x)
    (room : mid ≤ high) (next : ∀ a, Follows (Adds mid high) (f a)) :
    Follows (Adds low high) (x >>= f) :=
  adds_chain first room fun a _ _ _ => next a

theorem adds_pure (room : low ≤ high) (a : α) : Follows (Adds low high) (pure a : Patch α) :=
  ⟨fun s => Adds.refl room s⟩

theorem adds_splice {start stop : Int} (begins : low ≤ start) (range : start ≤ stop)
    (ends : stop ≤ high) (fragment : Text) : Follows (Adds low high) (splice start stop fragment) :=
  ⟨fun _ => ⟨[_], Draft.edits_splice .., .cons begins range (.nil ends)⟩⟩

end

/-! ## A whole node -/

section

variable {ed : Editing} {n : Node} (range : n.start.index ≤ ed.trueEnd n) (v : Value)
include range

theorem adds_replacePrimitive :
    Follows (Adds n.start.index (ed.trueEnd n)) (replacePrimitive ed n v) :=
  adds_bind ((tolerant_adds _).ofFragment _) (Int.ofNat_le.mpr range) fun _ =>
    adds_splice (Int.le_refl _) (Int.ofNat_le.mpr range) (Int.le_refl _) _

theorem adds_replaceBlock : Follows (Adds n.start.index (ed.trueEnd n)) (replaceBlock ed n v) := by
  have room : (n.start.index : Int) ≤ ed.trueEnd n := Int.ofNat_le.mpr range
  have h := tolerant_adds (n.start.index : Int)
  have finish : ∀ fragment, Follows (Adds n.start.index (ed.trueEnd n)) (do
      note (.replacingBlock n.kind n.start)
      splice n.start.index (ed.trueEnd n) fragment) := fun fragment =>
    adds_bind (h.report rfl) room fun _ => adds_splice (Int.le_refl _) room (Int.le_refl _) _
  refine Tolerant.ite (adds_bind (h.throw _) room fun _ : Unit => ?_) ?_
  all_goals
    refine adds_bind (h.renderAt ed n v _) room fun fragment => ?_
    refine Tolerant.ite ?_ (adds_bind (h.pure _) room finish)
    refine adds_bind (h.lineBreak ed) room fun _ => adds_bind (h.dump ed v false) room fun _ => ?_
    exact adds_bind (h.indented ed _ _) room fun _ => adds_bind (h.pure _) room finish

theorem adds_replaceItem {column : Int} {parent dash : Nat} (around : n.parent = some parent)
    (sits : (ed.node parent).content.column = column)
    (opens : Text.isDashAt ed.tree.text dash column = true) (before : dash < n.start.index) :
    Follows (Adds dash (ed.trueEnd n)) (replaceItem ed n v) := by
  have room : (dash : Int) ≤ ed.trueEnd n := by omega
  have h := tolerant_adds (dash : Int)
  rw [replaceItem, around]
  dsimp only
  refine adds_chain (h.ofPosition _) room fun found _ _ got => ?_
  obtain ⟨found, -⟩ := gives_ofPosition.mp got
  rw [sits] at found
  have near := dashBefore_spec opens before found
  refine Tolerant.ite (adds_bind (h.renderAt ed n v _) room fun _ => ?_)
    (adds_bind (h.renderAt ed n v _) room fun _ => ?_)
  · exact adds_splice (by omega) (by omega) (Int.le_refl _) _
  · exact adds_splice (by omega) (by omega) (Int.le_refl _) _

omit range in
theorem adds_replaceValue {key : Node} (range : key.stop.index ≤ ed.trueEnd n) :
    Follows (Adds key.stop.index (ed.trueEnd n)) (replaceValue ed key n v) := by
  have room : (key.stop.index : Int) ≤ ed.trueEnd n := Int.ofNat_le.mpr range
  have h := tolerant_adds (key.stop.index : Int)
  have finish : ∀ fragment, Follows (Adds key.stop.index (ed.trueEnd n)) (do
      note (.replacingValue key.shown n.start)
      splice key.stop.index (ed.trueEnd n) fragment) := fun fragment =>
    adds_bind (h.report rfl) room fun _ => adds_splice (Int.le_refl _) room (Int.le_refl _) _
  unfold replaceValue
  extract_lets head
  refine Tolerant.ite ?_ (Tolerant.ite ?_ ?_)
  · refine adds_bind (h.ofLayout _) room fun _ => adds_bind (h.lineBreak ed) room fun _ => ?_
    refine adds_bind (h.dump ed v false) room fun _ => adds_bind (h.indented ed _ _) room fun _ => ?_
    exact adds_bind (h.pure _) room finish
  · exact adds_bind (h.dump ed v false) room fun _ => adds_bind (h.pure _) room finish
  · exact adds_bind (h.ofFragment _) room fun _ => adds_bind (h.pure _) room finish

/-- In brackets only the node itself is replaced. -/
theorem adds_replaceWhole_flow (inside : (n.parent.map ed.node).any Node.isFlow = true)
    (key : Option Node) :
    Follows (Adds n.start.index (ed.trueEnd n)) (replaceWhole ed n v key) := by
  have room : (n.start.index : Int) ≤ ed.trueEnd n := Int.ofNat_le.mpr range
  have h := tolerant_adds (n.start.index : Int)
  unfold replaceWhole
  extract_lets parent
  rw [if_pos inside]
  have finish : ∀ literal, Follows (Adds n.start.index (ed.trueEnd n))
      (splice n.start.index (ed.trueEnd n) (anchored n literal)) := fun _ =>
    adds_splice (Int.le_refl _) room (Int.le_refl _) _
  exact Tolerant.ite (adds_bind (h.dump ed v true) room finish)
    (adds_bind (h.ofFragment _) room finish)

omit range in
/-- Outside of brackets the value of a key is replaced from the end of the key on. -/
theorem adds_replaceWhole_key (outside : (n.parent.map ed.node).any Node.isFlow = false)
    {key : Node} (range : key.stop.index ≤ ed.trueEnd n) :
    Follows (Adds key.stop.index (ed.trueEnd n)) (replaceWhole ed n v (some key)) := by
  unfold replaceWhole
  extract_lets parent
  rw [if_neg (ne_true_of_eq_false outside)]
  exact adds_replaceValue v range

/-- Outside of brackets an entry is replaced from its dash on. -/
theorem adds_replaceWhole_item (outside : (n.parent.map ed.node).any Node.isFlow = false)
    {parent dash : Nat} (around : n.parent = some parent)
    (opens : Text.isDashAt ed.tree.text dash (ed.node parent).content.column = true)
    (before : dash < n.start.index) :
    Follows (Adds dash (ed.trueEnd n)) (replaceWhole ed n v none) := by
  unfold replaceWhole
  extract_lets parent'
  rw [if_neg (ne_true_of_eq_false outside)]
  dsimp only
  rw [if_pos (by unfold parent'; rw [around]; rfl)]
  exact adds_replaceItem range v around rfl opens before

/-- The document's node is replaced as it is. -/
theorem adds_replaceWhole_root (alone : n.parent = none) :
    Follows (Adds n.start.index (ed.trueEnd n)) (replaceWhole ed n v none) := by
  unfold replaceWhole
  extract_lets parent
  have none : parent = none := by
    unfold parent
    rw [alone]
    rfl
  rw [none, if_neg (by exact Bool.false_ne_true)]
  dsimp only
  rw [if_neg (by exact Bool.false_ne_true)]
  exact Tolerant.ite (adds_replaceBlock range v) (adds_replacePrimitive range v)

end

/-! ## All below a node -/

/-- How far settling a node goes: to its end, or to where new text follows a block collection. -/
def reach (ed : Editing) (n : Node) : Nat :=
  if n.isBlock then ed.tree.appendPoint n else ed.trueEnd n

section

variable {ed : Editing} {low high : Int}

/-- Between two positions there are the ranges of the pairs, one behind another. -/
theorem adds_settlePairs {settle : Node → Value → Option Node → Patch Unit}
    {entries : List (Value × Value)} {pairs : List (Nat × Nat)} (room : low ≤ high)
    (inner : ∀ p ∈ pairs, (spelledKey? ed p).isSome = true → ∀ v,
      Follows (Adds (ed.node p.1).start.index (reach ed (ed.node p.2)))
        (settle (ed.node p.2) v (some (ed.node p.1))))
    (order : pairs.Pairwise fun p q => reach ed (ed.node p.2) ≤ (ed.node q.1).start.index)
    (first : ∀ p ∈ pairs, low ≤ (ed.node p.1).start.index)
    (last : ∀ p ∈ pairs, reach ed (ed.node p.2) ≤ high) :
    Follows (Adds low high) (settlePairs ed settle entries pairs) := by
  induction pairs generalizing low with
  | nil => exact adds_pure room _
  | cons p r ih =>
    obtain ⟨begins, firsts⟩ := List.forall_mem_cons.mp first
    obtain ⟨ends, lasts⟩ := List.forall_mem_cons.mp last
    obtain ⟨here, inner⟩ := List.forall_mem_cons.mp inner
    obtain ⟨before, order⟩ := List.pairwise_cons.mp order
    have skip := ih room inner order firsts lasts
    refine adds_chain ((tolerant_adds low).scalarKey ed p.1) room fun key _ _ got => ?_
    have spelled := (gives_scalarKey (p := p) got).1
    cases key with
    | none => exact skip
    | some key =>
      dsimp only
      split
      · next v _ =>
        have settled := here (by rw [← spelled]; rfl) v
        refine adds_bind (adds_mono settled begins (Int.le_refl _)) ends fun _ => ?_
        exact ih ends inner order (fun q hq => Int.ofNat_le.mpr (before q hq)) lasts
      · exact skip

/-- Between two positions there are the ranges of the entries, one behind another. -/
theorem adds_settleItems {settle : Node → Value → Option Node → Patch Unit} {items : List Nat}
    {values : List Value} (room : low ≤ high)
    (inner : ∀ k j, items[k]? = some j → ∃ opens : Nat, low ≤ opens ∧
      (∀ m ∈ items.take k, reach ed (ed.node m) ≤ opens) ∧
        ∀ v, Follows (Adds opens (reach ed (ed.node j))) (settle (ed.node j) v none))
    (last : ∀ j ∈ items, reach ed (ed.node j) ≤ high) :
    Follows (Adds low high) (settleItems ed settle items values) := by
  induction items generalizing low values with
  | nil => exact adds_pure room _
  | cons i r ih =>
    cases values with
    | nil => exact adds_pure room _
    | cons v values =>
      obtain ⟨ends, lasts⟩ := List.forall_mem_cons.mp last
      obtain ⟨opens, begins, -, settled⟩ := inner 0 i rfl
      refine adds_bind (adds_mono (settled v) begins (Int.le_refl _)) ends fun _ => ih ends ?_ lasts
      intro k j place
      obtain ⟨opens, -, behind, settled⟩ := inner (k + 1) j place
      obtain ⟨here, behind⟩ := List.forall_mem_cons.mp behind
      exact ⟨opens, Int.ofNat_le.mpr here, behind, settled⟩

variable {n : Node}

theorem adds_settleAlias {key : Option Node} (room : low ≤ high)
    (whole : ∀ v, Follows (Adds low high) (replaceWhole ed n v key)) (target : Option (Nat × Tag))
    (v : Value) : Follows (Adds low high) (settleAlias ed n target v key) := by
  have h := tolerant_adds low
  have write : ∀ keeps : Bool, Follows (Adds low high) (do
      if !keeps then
        note (.expandingAlias n.start)
        replaceWhole ed n v key) := fun keeps =>
    Tolerant.ite (adds_bind (h.report rfl) room fun _ => whole v) (adds_pure room _)
  refine Tolerant.ite ?_ (adds_bind (h.pure _) room write)
  refine adds_bind (h.settledValue? ed n) room fun w => ?_
  cases w with
  | none => exact adds_bind (h.pure _) room write
  | some w => exact adds_bind (h.pure _) room write

/-- A mapping is written anew, or nothing is spliced before its pairs are settled. -/
theorem adds_planMerges {key : Option Node} (room : low ≤ high)
    (whole : ∀ v, Follows (Adds low high) (replaceWhole ed n v key)) (v : Value)
    (entries : List (Value × Value)) :
    Follows (Adds low high) (planMerges ed n v entries key) ∧
      ∀ stale s t, Gives (planMerges ed n v entries key) s (.override stale) t →
        Adds low low s t ∧ (n.isFlow = true → stale = []) := by
  have h := tolerant_adds low
  have rewrite : Follows (Adds low high) (do replaceWhole ed n v key; return MergePlan.finished) :=
    adds_bind (whole v) (Int.le_refl _) fun _ => adds_pure (Int.le_refl _) _
  have other : ∀ stale s t, ¬ Gives (do replaceWhole ed n v key; return MergePlan.finished) s
      (.override stale) t := by
    intro stale s t got
    obtain ⟨_, _, -, got⟩ := gives_bind.mp got
    cases (gives_pure.mp got).1
  constructor
  · refine Tolerant.ite (adds_pure room _) (adds_bind (h.settledValue? ed n) room fun current => ?_)
    cases current with
    | none => exact Tolerant.ite rewrite (adds_pure room _)
    | some current =>
      refine adds_bind (h.ownKeys ed n) room fun own => ?_
      refine adds_bind (h.dropsMergedKey ed n current v) room fun _ => Tolerant.ite rewrite ?_
      refine adds_bind (h.staleEntries current own entries) room fun stale => ?_
      exact Tolerant.ite rewrite (adds_pure room _)
  · intro stale s t got
    rw [planMerges] at got
    split at got
    · obtain ⟨same, rfl⟩ := gives_pure.mp got
      cases same
      exact ⟨.refl (Int.le_refl _) s, fun _ => rfl⟩
    · obtain ⟨current, s₁, looked, got⟩ := gives_bind.mp got
      have first := (h.settledValue? ed n).gives looked
      cases current with
      | none =>
        dsimp only at got
        split at got
        · exact absurd got (other _ _ _)
        · cases (gives_pure.mp got).1
      | some current =>
        obtain ⟨own, s₂, looked, got⟩ := gives_bind.mp got
        have second := (h.ownKeys ed n).gives looked
        obtain ⟨drops, s₃, looked, got⟩ := gives_bind.mp got
        have third := (h.dropsMergedKey ed n current v).gives looked
        split at got
        · exact absurd got (other _ _ _)
        · obtain ⟨stale', s₄, looked, got⟩ := gives_bind.mp got
          have fourth := (h.staleEntries current own entries).gives looked
          split at got
          · exact absurd got (other _ _ _)
          · next kept =>
            obtain ⟨same, rfl⟩ := gives_pure.mp got
            cases same
            refine ⟨first.trans (second.trans (third.trans fourth)), fun flow => ?_⟩
            simpa [flow] using kept

end

section

variable {ed : Editing} (lies : ed.tree.Successive) {i j : Nat} {n m : Node}
include lies

theorem trueEnd_le_reach (here : ed.tree.node? i = some n) : ed.trueEnd n ≤ reach ed n := by
  rw [reach]
  split
  · exact Tree.le_appendPoint (lies.range i n here).2
  · exact Nat.le_refl _

theorem reach_le_appendPoint (here : ed.tree.node? i = some n) :
    reach ed n ≤ ed.tree.appendPoint n := by
  rw [reach]
  split
  · exact Nat.le_refl _
  · exact Tree.le_appendPoint (lies.range i n here).2

/-- Of two children one behind the other, settling the first does not reach the second. -/
theorem reach_le_start (here : ed.tree.node? i = some n) :
    n.children.Pairwise fun j k => ∀ c ∈ ed.tree.node? j, ∀ d ∈ ed.tree.node? k,
      reach ed c ≤ d.start.index := by
  refine (lies.order i n here).imp ?_
  intro j k before c hc d hd
  obtain ⟨ends, tails⟩ := before c hc d hd
  exact Nat.le_trans (reach_le_appendPoint lies hc) (Tree.appendPoint_le ends tails)

/-- Settling a child reaches no further than settling the node around it. -/
theorem reach_child_le (lineage : ed.tree.Lineage) (here : ed.tree.node? i = some n)
    (listed : j ∈ n.children) (found : ed.tree.node? j = some m) : reach ed m ≤ reach ed n := by
  obtain ⟨m', found', -, leaf⟩ := lineage.child i n here j listed
  cases found.symm.trans found'
  cases flow : n.isFlow with
  | true =>
    rw [reach, leaf flow]
    exact Nat.le_trans (lies.inside i n here j listed m found).2 (trueEnd_le_reach lies here)
  | false =>
    have block : n.isBlock = true := by
      rw [Node.isBlock, flow]
      rcases Tree.kind_of_mem_children listed with kind | kind <;> rw [kind] <;> rfl
    have some_ := List.ne_nil_of_mem listed
    have last := List.getLast?_eq_some_getLast some_
    obtain ⟨l, known, -⟩ := lineage.child i n here _ (List.getLast_mem some_)
    have ends : ed.tree.trueEnd n = ed.tree.trueEnd l :=
      Tree.trueEnd_of_last lineage.later
        (fun i n here c hc => by
          obtain ⟨m, found, -⟩ := lineage.child i n here c hc
          rw [found]
          rfl)
        here flow last known
    have same : reach ed n = ed.tree.appendPoint l := by
      rw [reach, block, if_pos rfl, Tree.appendPoint, Tree.appendPoint, ends]
    rw [same]
    -- A child that is not the last one ends before that starts.
    have split := List.dropLast_append_getLast some_
    rw [← split, List.mem_append, List.mem_singleton] at listed
    rcases listed with earlier | rfl
    · have order := reach_le_start lies here
      rw [← split, List.pairwise_append] at order
      have before := order.2.2 j earlier _ (List.mem_singleton_self _) m found l known
      have range := (lies.range _ l known)
      exact Nat.le_trans before (Nat.le_trans range.1 (Tree.le_appendPoint range.2))
    · cases known.symm.trans found
      exact reach_le_appendPoint lies known

/-! ## A round -/

omit lies in
/-- A node is settled within its range, if a whole new text for it would be put there. -/
def Settles (ed : Editing) (settle : Node → Value → Option Node → Patch Unit) (n : Node) : Prop :=
  ∀ (low : Int) (key : Option Node), low ≤ n.start.index →
    (∀ v, Follows (Adds low (ed.trueEnd n)) (replaceWhole ed n v key)) →
      ∀ v, Follows (Adds low (reach ed n)) (settle n v key)

variable {settle : Node → Value → Option Node → Patch Unit}

omit lies in
theorem any_isFlow_parent (here : ed.tree.node? i = some n) (parent : m.parent = some i) :
    (m.parent.map ed.node).any Node.isFlow = n.isFlow := by
  rw [parent, Option.map_some, node_of_found here]
  rfl

section

variable (lineage : ed.tree.Lineage) (here : ed.tree.node? i = some n)
  (settles : ∀ j c, ed.tree.node? j = some c → Settles ed settle c)
include lineage here settles

/-- The pairs of a mapping are settled within the mapping. -/
theorem adds_settlePairs_of_settles (entries : List (Value × Value)) :
    Follows (Adds n.start.index (reach ed n)) (settlePairs ed settle entries n.pairs) := by
  have room : (n.start.index : Int) ≤ reach ed n :=
    Int.ofNat_le.mpr (Nat.le_trans (lies.range i n here).1 (trueEnd_le_reach lies here))
  have child : ∀ j ∈ n.children, ed.tree.node? j = some (ed.node j) ∧
      (ed.node j).parent = some i := by
    intro j hj
    obtain ⟨c, found, parent, -⟩ := lineage.child i n here j hj
    rw [node_of_found found]
    exact ⟨found, parent⟩
  have order : (∀ p ∈ n.pairs, reach ed (ed.node p.1) ≤ (ed.node p.2).start.index) ∧
      n.pairs.Pairwise fun p q => reach ed (ed.node p.2) ≤ (ed.node q.1).start.index := by
    have order := reach_le_start lies here
    have both := fun p (hp : p ∈ n.pairs) => Node.mem_children_of_mem_pairs hp
    constructor
    · intro p hp
      rw [Tree.children_of_pairs hp, List.pairwise_flatMap] at order
      exact List.rel_of_pairwise_cons (order.1 p hp) (List.mem_singleton_self _) _
        (child _ (both p hp).1).1 _ (child _ (both p hp).2).1
    · cases none : n.pairs with
      | nil => exact .nil
      | cons p r =>
        rw [Tree.children_of_pairs (p := p) (by rw [none]; simp), List.pairwise_flatMap, none] at order
        refine order.2.imp_of_mem fun {p q} hp hq before => ?_
        rw [← none] at hp hq
        exact before p.2 (by simp) q.1 (by simp) _ (child _ (both p hp).2).1 _
          (child _ (both q hq).1).1
  refine adds_settlePairs room ?_ order.2 ?_ ?_
  · intro p hp spelled v
    obtain ⟨hk, hc⟩ := Node.mem_children_of_mem_pairs hp
    obtain ⟨⟨key, -⟩, value, parent⟩ := And.intro (child _ hk) (child _ hc)
    have keyRange := (lies.range _ _ key).1
    have valueRange := (lies.range _ _ value).1
    have before := order.1 p hp
    have keyReach := trueEnd_le_reach lies key
    have keyEnd : (ed.tree.trueEnd (ed.node p.1)).index = (ed.node p.1).stop.index :=
      congrArg Mark.index (trueEnd_of_childless (childless_of_spelled spelled))
    have ends : ed.trueEnd (ed.node p.1) = (ed.node p.1).stop.index := keyEnd
    have around := any_isFlow_parent here parent
    refine settles _ _ value _ _ (by omega) (fun v => ?_) v
    cases flow : n.isFlow with
    | true =>
      rw [flow] at around
      exact adds_mono (adds_replaceWhole_flow valueRange v around _) (by omega) (Int.le_refl _)
    | false =>
      rw [flow] at around
      have range : (ed.node p.1).stop.index ≤ ed.trueEnd (ed.node p.2) := by
        have : ed.trueEnd (ed.node p.2) = (ed.tree.trueEnd (ed.node p.2)).index := rfl
        omega
      exact adds_mono (adds_replaceWhole_key v around range) (by omega) (Int.le_refl _)
  · intro p hp
    obtain ⟨hk, -⟩ := Node.mem_children_of_mem_pairs hp
    exact Int.ofNat_le.mpr (lies.inside i n here _ hk _ (child _ hk).1).1
  · intro p hp
    obtain ⟨-, hc⟩ := Node.mem_children_of_mem_pairs hp
    exact Int.ofNat_le.mpr (reach_child_le lies lineage here hc (child _ hc).1)

/-- The entries of a sequence are settled within the sequence. -/
theorem adds_settleItems_of_settles (values : List Value) :
    Follows (Adds n.start.index (reach ed n)) (settleItems ed settle n.items values) := by
  have room : (n.start.index : Int) ≤ reach ed n :=
    Int.ofNat_le.mpr (Nat.le_trans (lies.range i n here).1 (trueEnd_le_reach lies here))
  have child : ∀ j ∈ n.items, j ∈ n.children ∧ ed.tree.node? j = some (ed.node j) ∧
      (ed.node j).parent = some i := by
    intro j hj
    have listed : j ∈ n.children := by rwa [Tree.children_of_items hj]
    obtain ⟨c, found, parent, -⟩ := lineage.child i n here j listed
    rw [node_of_found found]
    exact ⟨listed, found, parent⟩
  refine adds_settleItems room ?_ ?_
  · intro k j place
    have hj := List.mem_of_getElem? place
    obtain ⟨listed, found, parent⟩ := child j hj
    have range := (lies.range _ _ found).1
    have around := any_isFlow_parent here parent
    cases flow : n.isFlow with
    | true =>
      rw [flow] at around
      refine ⟨_, Int.ofNat_le.mpr (lies.inside i n here j listed _ found).1, ?_, ?_⟩
      · intro m hm
        have order := reach_le_start lies here
        obtain ⟨at', inside, rfl⟩ := List.mem_take_iff_getElem.mp hm
        obtain ⟨bound, rfl⟩ := List.getElem?_eq_some_iff.mp place
        rw [Tree.children_of_items hj] at order
        exact List.pairwise_iff_getElem.mp order at' k (by omega) bound (by omega) _
          (child _ (List.getElem_mem _)).2.1 _ found
      · exact settles _ _ found _ _ (Int.le_refl _) fun v =>
          adds_replaceWhole_flow range v around none
    | false =>
      rw [flow] at around
      obtain ⟨dash, before, opens, starts, behind⟩ := lies.dash i n here flow k j place _ found
      rw [← node_of_found here] at opens
      refine ⟨dash, Int.ofNat_le.mpr starts, ?_, ?_⟩
      · intro m hm
        have known := (child m (List.mem_of_mem_take hm)).2.1
        obtain ⟨ends, tails⟩ := behind m hm _ known
        exact Nat.le_trans (reach_le_appendPoint lies known) (Tree.appendPoint_le ends tails)
      · exact settles _ _ found _ _ (by omega) fun v =>
          adds_replaceWhole_item range v around parent opens before
  · intro j hj
    obtain ⟨listed, found, -⟩ := child j hj
    exact Int.ofNat_le.mpr (reach_child_le lies lineage here listed found)

end

variable (lineage : ed.tree.Lineage)
include lineage

/-- Every node is settled within its range. -/
theorem settles_settleAt (depth : Nat) (here : ed.tree.node? i = some n) :
    Settles ed (settleAt ed depth) n := by
  induction depth generalizing i n with
  | zero =>
    intro low key begins _ v
    have range := (lies.range i n here).1
    have further := trueEnd_le_reach lies here
    exact adds_pure (Int.le_trans begins (Int.ofNat_le.mpr (Nat.le_trans range further))) _
  | succ depth ih =>
    intro low key begins whole v
    have further : (ed.trueEnd n : Int) ≤ reach ed n :=
      Int.ofNat_le.mpr (trueEnd_le_reach lies here)
    have room : low ≤ ed.trueEnd n :=
      Int.le_trans begins (Int.ofNat_le.mpr (lies.range i n here).1)
    have wider : ∀ {x : Patch Unit}, Follows (Adds low (ed.trueEnd n)) x →
        Follows (Adds low (reach ed n)) x := fun h => adds_mono h (Int.le_refl _) further
    have settles : ∀ j c, ed.tree.node? j = some c → Settles ed (settleAt ed depth) c :=
      fun _ _ found => ih found
    have room' := Int.le_trans room further
    unfold settleAt
    split
    · exact wider (adds_settleAlias room whole _ _)
    · next tag frame pairs id entries body =>
      obtain ⟨planned, keeps⟩ := adds_planMerges room whole (.dict id entries) entries
      refine adds_resume (adds_mono planned (Int.le_refl _) further) fun plan s t got => ?_
      cases plan with
      | finished => exact (planned.gives got).mono (Int.le_refl _) further
      | override stale =>
        obtain ⟨still, bare⟩ := keeps stale s t got
        have pairs_ : n.pairs = pairs := by rw [Node.pairs, body]
        have settled := adds_settlePairs_of_settles lies lineage here settles entries
        rw [pairs_] at settled
        have rest : Follows (Adds low (reach ed n)) (do
            settlePairs ed (settleAt ed depth) entries pairs
            addOverrides ed n stale) := by
          refine adds_bind (adds_mono settled begins (Int.le_refl _)) (Int.le_refl _) fun _ => ?_
          cases flow : n.isFlow with
          | true =>
            rw [bare flow]
            exact adds_pure (Int.le_refl _) _
          | false =>
            have block : n.isBlock = true := by
              rw [Node.isBlock, flow, Node.kind, body]
              rfl
            rw [reach, block, if_pos rfl]
            exact (tolerant_adds _).addOverrides ed (writes_any ed) n ⟨rfl, rfl⟩ stale
        exact still.trans (rest.run t)
    · next tag frame items id values body =>
      have settled := adds_settleItems_of_settles lies lineage here settles values
      rw [Node.items, body] at settled
      exact adds_mono settled begins (Int.le_refl _)
    · exact adds_pure room' _

/-- All that a round of settling splices is spliced from the start of the text to its end. -/
theorem adds_settleRound (v : Value) :
    Follows (Adds 0 ed.tree.text.length) (settleRound ed v) := by
  rw [settleRound]
  split
  · next root here =>
    have range := lies.range 0 root here
    have ends : reach ed root ≤ ed.tree.text.length :=
      Nat.le_trans (reach_le_appendPoint lies here) (Tree.appendPoint_le_length range.2)
    have settled := settles_settleAt lies lineage (ed.tree.nodes.size + 1) here _ none
      (Int.le_refl _) (fun v => adds_replaceWhole_root range.1 v (lineage.root root here)) v
    exact adds_mono settled (Int.natCast_nonneg _) (Int.ofNat_le.mpr ends)
  · exact adds_pure (Int.natCast_nonneg _) _

end

/-- Over a text that a lenient tree is written over node by node, a round of settling makes only edits
that a draft makes at once, in the order of the text, whether the round succeeds or fails. -/
theorem settleRound_forward {text : Text} {t : Tree} (composed : Tree.compose text true = .ok t)
    (lies : t.Successive) (layout : Layout) (v : Value) (notices : List Notice) :
    Draft.Forward text.length
      ((settleRound ⟨t, layout⟩ v).run.run { draft := .ofText text, notices }).2.draft.edits := by
  have lineage := Tree.lineage_of_compose composed
  let ed : Editing := ⟨t, layout⟩
  have lies : ed.tree.Successive := lies
  obtain ⟨edits, made, run⟩ := (adds_settleRound lies lineage v).run { draft := .ofText text, notices }
  rw [made, ← Tree.text_of_compose composed]
  exact run.forward

/-- Two mappings that merge others in, one at the end of the other, and aliases in brackets and
behind a dash. -/
def sharedEnd : Text :=
  "b: &b {x: 1, y: 2}\ni:\n- *b\n- [*b]\no:\n  <<: *b\n  p:\n    <<: *b\n    w: 1 # end\n".toList

/-- Another value for each alias of `sharedEnd`, and for a merged key of each mapping. -/
def sharedEndNext : Value :=
  .dict none [(.str ['b'], .dict none [(.str ['x'], .int 1), (.str ['y'], .int 2)]),
    (.str ['i'], .list none [.list none [.int 5], .list none [.int 7]]),
    (.str ['o'], .dict none [(.str ['x'], .int 1), (.str ['y'], .int 3),
      (.str ['p'], .dict none [(.str ['x'], .int 4), (.str ['y'], .int 2), (.str ['w'], .int 1)])])]

theorem settleRound_forward_sharedEnd : ∃ t, Tree.compose sharedEnd true = .ok t ∧ t.Successive ∧
    let edits := ((settleRound ⟨t, {}⟩ sharedEndNext).run.run
      { draft := .ofText sharedEnd }).2.draft.edits
    Draft.Forward sharedEnd.length edits ∧
      edits.map (fun e => (e.start, e.stop)) = [(23, 26), (30, 32), (76, 76), (76, 76)] := by
  obtain ⟨t, composed, check⟩ := exists_of_any
    (show (Tree.compose sharedEnd true).toOption.any (fun t =>
      decide (∀ i < t.nodes.size, ∀ n ∈ t.node? i, t.LaysNode i n) &&
        decide (∀ i < t.nodes.size, ∀ n ∈ t.node? i, n.isFlow = false → ∀ k < n.items.length,
          ∀ j ∈ n.items[k]?, ∀ c ∈ t.node? j, t.OwnsDash n c (n.items.take k)) &&
        ((settleRound ⟨t, {}⟩ sharedEndNext).run.run
          { draft := .ofText sharedEnd }).2.draft.edits.map (fun e => (e.start, e.stop)) ==
            [(23, 26), (30, 32), (76, 76), (76, 76)]) = true by decide +kernel)
  simp only [Bool.and_eq_true, decide_eq_true_eq, beq_iff_eq] at check
  obtain ⟨⟨lays, dashes⟩, edits⟩ := check
  have lies := (Tree.laid_of_lays lays).successive dashes
  exact ⟨t, composed, lies, settleRound_forward composed lies {} sharedEndNext [], edits⟩

end Patch

end YamlEdit
