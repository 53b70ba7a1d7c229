import Mathlib.Data.List.DropRight
import YamlEdit.Proofs.Patch.Follows
import YamlEdit.Proofs.Tree.Layout

/-!
# What patches leave alone

Taking a collection to a new value splices no character of a pair or an entry that the new value
keeps. Whatever is spliced belongs to a sibling of it: the sibling itself, the line that it has to
itself, or the break in front of that line. The last is why a span counts only up to its last
character that is not blank: the value of a pair without one may end behind a line break.
-/

namespace YamlEdit

/-! ## Spans without the blanks at their ends -/

namespace Text

/-- Where a span ends without the blanks at its end. -/
def spanEnd (s : Text) (start stop : Nat) : Nat :=
  start + (dropEndWhile (slice s start stop) isBlank).length

/-- Up to its end without blanks, a span goes on to a character that is not blank. -/
theorem exists_not_blank {s : Text} {start stop pos : Nat} (first : start ≤ pos)
    (last : pos < spanEnd s start stop) :
    ∃ i, pos ≤ i ∧ i < stop ∧ ∃ c ∈ s[i]?, isBlank c = false := by
  have shape : dropEndWhile (slice s start stop) isBlank =
      (slice s start stop).rdropWhile isBlank :=
    rfl
  rw [spanEnd, shape] at last
  have short := length_slice_le s start stop
  obtain ⟨rest, whole⟩ := List.rdropWhile_prefix isBlank (l := slice s start stop)
  generalize kept : (slice s start stop).rdropWhile isBlank = span at last whole
  have filled : span ≠ [] := by
    rintro rfl
    rw [List.length_nil] at last
    omega
  have size : span.length ≤ (slice s start stop).length := by
    rw [← whole, List.length_append]
    omega
  have solid := List.rdropWhile_last_not isBlank (slice s start stop) (by rwa [kept])
  have positive := List.length_pos_iff.mpr filled
  refine ⟨start + (span.length - 1), by omega, by omega, span.getLast filled, ?_, ?_⟩
  · have place : (slice s start stop)[span.length - 1]? = some (span.getLast filled) := by
      rw [← whole, List.getElem?_append_left (by omega), List.getLast_eq_getElem]
      exact List.getElem?_eq_getElem _
    rwa [getElem?_slice (by omega)] at place
  · simp only [kept] at solid
    simpa using solid

/-- The characters from one position up to another are blank, as far as there are any. -/
def BlankFrom (s : Text) (start stop : Nat) : Prop :=
  ∀ i, start ≤ i → i < stop → ∀ c ∈ s[i]?, isBlank c = true

theorem blankFrom_of_isBlankText {s : Text} {start stop : Nat}
    (h : isBlankText (slice s start stop) = true) : BlankFrom s start stop := by
  intro i first last c hc
  have inside : (slice s start stop)[i - start]? = some c := by
    rw [getElem?_slice (by omega), show start + (i - start) = i by omega]
    exact hc
  exact List.all_eq_true.mp h c (List.mem_of_getElem? inside)

/-- A line that does not start the text has a line break before it. -/
theorem isBreak_before_lineStart {s : Text} {pos : Nat} (later : lineStart s pos ≠ 0) :
    ∃ c ∈ s[lineStart s pos - 1]?, isBreak c = true := by
  have parts :=
    List.takeWhile_append_dropWhile (p := fun c => !isBreak c) (l := (s.take pos).reverse)
  have size : lineStart s pos =
      ((s.take pos).reverse.dropWhile fun c => !isBreak c).length := by
    have total := congrArg List.length parts
    rw [List.length_append, List.length_reverse] at total
    simp only [lineStart]
    omega
  rw [size] at later ⊢
  have before : s.take pos = ((s.take pos).reverse.dropWhile fun c => !isBreak c).reverse ++
      ((s.take pos).reverse.takeWhile fun c => !isBreak c).reverse := by
    rw [← List.reverse_append, parts, List.reverse_reverse]
  have ends := List.head?_dropWhile_not (fun c => !isBreak c) (s.take pos).reverse
  generalize (s.take pos).reverse.dropWhile (fun c => !isBreak c) = lines at later before ends
  cases lines with
  | nil => exact absurd rfl later
  | cons c r =>
    refine ⟨c, ?_, by simpa using ends⟩
    have within : (s.take pos)[r.length]? = some c := by
      rw [before, List.reverse_cons, List.append_assoc, List.getElem?_append_right (by simp)]
      simp
    have short : r.length < pos := by
      have bound := (List.getElem?_eq_some_iff.mp within).1
      rw [List.length_take] at bound
      omega
    rw [List.getElem?_take_of_lt short] at within
    exact within

/-- The line break before a line is blank. -/
theorem blankFrom_breakBefore {s : Text} {pos : Nat} (later : lineStart s pos ≠ 0) :
    BlankFrom s (breakBefore s (lineStart s pos)) (lineStart s pos) := by
  rw [breakBefore]
  split
  · next pair =>
    simp only [Bool.and_eq_true, decide_eq_true_eq, beq_iff_eq] at pair
    refine blankFrom_of_isBlankText ?_
    rw [pair.2]
    rfl
  · intro i first last c hc
    obtain ⟨b, found, isBreak⟩ := isBreak_before_lineStart later
    obtain rfl : i = lineStart s pos - 1 := by omega
    rw [Option.mem_def.mp found] at hc
    cases hc
    exact isBlank_of_isBreak isBreak

end Text

namespace Patch

/-! ## Ranges that avoid a span -/

/-- A range without a character of a span, as positions from the start of the text. -/
def Avoids (first last : Nat) (start stop : Int) : Prop :=
  0 ≤ start ∧ ∀ pos : Nat, first ≤ pos → pos < last → ¬ (start ≤ pos ∧ pos < stop)

/-- Sessions of which the second made further splices, all of allowed ranges. -/
def Splices (allowed : Int → Int → Prop) (s t : Session) : Prop :=
  ∃ more, t.draft.edits = s.draft.edits ++ more ∧ ∀ e ∈ more, allowed e.start e.stop

theorem tolerant_splices (allowed : Int → Int → Prop) :
    Tolerant (Splices allowed) allowed AnyLetter where
  refl := fun _ => ⟨[], (List.append_nil _).symm, fun _ h => absurd h List.not_mem_nil⟩
  trans := by
    rintro s t u ⟨a, ha, inA⟩ ⟨b, hb, inB⟩
    refine ⟨a ++ b, by rw [hb, ha, List.append_assoc], ?_⟩
    intro e he
    exact (List.mem_append.mp he).elim (inA e) (inB e)
  note := fun _ _ _ => ⟨[], (List.append_nil _).symm, fun _ h => absurd h List.not_mem_nil⟩
  splice := by
    intro s start stop fragment may _
    refine ⟨[_], Draft.edits_splice .., ?_⟩
    intro e he
    rw [List.mem_singleton.mp he]
    exact may

/-- A change that splices no character of a span, the blanks at its end apart, whether it succeeds
or fails. -/
def Spares {α : Type} (x : Patch α) (text : Text) (start stop : Nat) : Prop :=
  ∀ s : Session, Splices (Avoids start (text.spanEnd start stop)) s (x.run.run s).2

variable {t : Tree} {first last stop : Nat} {a b start : Int}

theorem avoids_empty (inText : 0 ≤ a) : Avoids first last a a :=
  ⟨inText, fun _ _ _ => by omega⟩

theorem avoids_before (inText : 0 ≤ a) (before : b ≤ first) : Avoids first last a b :=
  ⟨inText, fun _ _ _ => by omega⟩

/-- A range that starts in the blanks at the end of a span, or behind it. -/
theorem avoids_behind {text : Text} {a : Nat} (blank : text.BlankFrom a stop) :
    Avoids first (text.spanEnd first stop) a b := by
  refine ⟨Int.natCast_nonneg a, ?_⟩
  rintro pos starts ends ⟨above, -⟩
  obtain ⟨i, further, inside, c, found, solid⟩ := Text.exists_not_blank starts ends
  rw [blank i (by omega) inside c found] at solid
  cases solid

theorem blankFrom_of_le {text : Text} {a : Nat} (h : stop ≤ a) : text.BlankFrom a stop :=
  fun _ _ _ => by omega

/-! ## Erased lines -/

theorem blankFrom_lineStart {text : Text} (behind : stop ≤ start)
    (blank : Text.isBlankText
      (Text.between text (Text.lineStart text (Text.place text start)) start) = true) :
    text.BlankFrom (Text.lineStart text (Text.place text start)) stop := by
  have line := Text.lineStart_le text (Text.place text start)
  have inText := Text.place_le text start
  rw [Text.between, Text.place_natCast, Nat.min_eq_right (Nat.le_trans line inText)] at blank
  intro i starts ends c found
  refine Text.blankFrom_of_isBlankText blank i starts ?_ c found
  have short := (List.getElem?_eq_some_iff.mp found).1
  have place : Text.place text start = min text.length start.toNat := by
    rw [Text.place, if_neg (by omega)]
  omega

/-- Erasing what lies behind a span takes no more of the span than blanks at its end. -/
theorem erases_behind {text : Text} {stop' : Int} (behind : stop ≤ start)
    (h : Erases text start stop' a b) : Avoids first (text.spanEnd first stop) a b := by
  rcases h with ⟨rfl, -⟩ | ⟨tail, -, blank, line⟩
  · obtain ⟨n, rfl⟩ := Int.eq_ofNat_of_zero_le (Int.le_trans (Int.natCast_nonneg _) behind)
    exact avoids_behind (blankFrom_of_le (by omega))
  · have blanks := blankFrom_lineStart behind blank
    rcases line with ⟨rfl, -⟩ | ⟨later, rfl, -⟩
    · exact avoids_behind blanks
    · refine avoids_behind ?_
      intro i starts ends c found
      rcases Nat.lt_or_ge i (Text.lineStart text (Text.place text start)) with before | further
      · exact Text.blankFrom_breakBefore later i starts before c found
      · exact blanks i further ends c found

/-- Erasing what ends before a span with its line takes nothing of the span. -/
theorem erases_before {stop' : Nat} (inText : 0 ≤ start) (short : stop' ≤ t.text.length)
    (before : stop' ≤ first) (lines : t.LeavesLine stop' first)
    (h : Erases t.text start stop' a b) : Avoids first last a b := by
  rcases h with ⟨rfl, rfl⟩ | ⟨tail, found, -, line⟩
  · exact avoids_before inText (by omega)
  · rw [Text.lineTailAt_natCast short, Except.ok.injEq, Option.map_eq_some_iff] at found
    obtain ⟨place, found, rfl⟩ := found
    have further := lines place found
    have inside : place ≤ t.text.length := by
      rw [Text.lineTail?, Option.map_eq_some_iff] at found
      obtain ⟨rest, -, rfl⟩ := found
      exact Nat.sub_le ..
    have next : Text.skipBreakAt t.text (Int.ofNat place) = Text.skipBreak t.text place :=
      Text.skipBreakAt_natCast inside
    have grows := Text.le_skipBreak t.text place
    have ends : b ≤ first := by
      rcases line with ⟨-, rfl | rfl⟩ | ⟨-, -, rfl⟩
      · omega
      · exact Int.ofNat_le.mpr (Nat.le_trans grows further)
      · exact Int.ofNat_le.mpr (Nat.le_trans grows further)
    refine avoids_before ?_ ends
    rcases line with ⟨rfl, -⟩ | ⟨-, rfl, -⟩
    · exact Int.natCast_nonneg _
    · exact Int.natCast_nonneg _

/-! ## Dashes -/

theorem le_lastDash {text : Text} {column : Int} {dash pos : Nat}
    (opens : Text.isDashAt text dash column = true) (h : dash ≤ pos) :
    dash ≤ Text.lastDash text column pos := by
  induction pos with
  | zero => exact h
  | succ pos ih =>
    rw [Text.lastDash]
    split
    · exact h
    · next other =>
      refine ih ?_
      rcases Nat.lt_or_ge pos dash with last | earlier
      · obtain rfl : dash = pos + 1 := by omega
        exact absurd opens other
      · exact earlier

theorem lastDash_le (text : Text) (column : Int) (pos : Nat) :
    Text.lastDash text column pos ≤ pos := by
  induction pos with
  | zero => exact Nat.le_refl 0
  | succ pos ih =>
    rw [Text.lastDash]
    split
    · exact Nat.le_refl _
    · exact Nat.le_succ_of_le ih

/-- The dash that is found for an entry is its own, or one behind that. -/
theorem dashBefore_spec {text : Text} {column : Int} {dash pos : Nat} {found : Int}
    (opens : Text.isDashAt text dash column = true) (before : dash < pos)
    (h : Text.dashBefore text pos column = .ok found) : dash ≤ found ∧ found < pos := by
  simp only [Text.dashBefore] at h
  split at h
  · cases h
    omega
  · split at h
    · cases h
    · cases h
      obtain ⟨last, rfl⟩ : ∃ last, pos = last + 1 := ⟨pos - 1, by omega⟩
      have place : ((last + 1 : Nat) - 1 : Int).toNat = last := by omega
      rw [place]
      have further := le_lastDash opens (Nat.le_of_lt_succ before)
      have bound := lastDash_le text column last
      omega

/-! ## Nodes beside a span -/

/-- A node of a tree that is written behind a span, or before it with the rests of its lines. -/
def ClearOf (t : Tree) (first stop : Nat) (n : Node) : Prop :=
  (∃ i, t.node? i = some n) ∧ (stop ≤ n.start.index ∨ t.Before n first)

theorem node_of_found {ed : Editing} {i : Nat} {n : Node} (h : ed.tree.node? i = some n) :
    ed.node i = n := by
  rw [Editing.node, h]
  rfl

theorem trueEnd_of_flow {n : Node} (flow : n.isFlow = true) : t.trueEnd n = n.stop := by
  rw [Tree.trueEnd, Tree.lastWritten]
  cases t.nodes.size with
  | zero => rfl
  | succ steps => rw [Tree.lastLeaf, if_pos flow]

theorem trueEnd_of_childless {n : Node} (childless : n.children = []) : t.trueEnd n = n.stop := by
  rw [Tree.trueEnd, Tree.lastWritten]
  cases t.nodes.size with
  | zero => rfl
  | succ steps =>
    rw [Tree.lastLeaf, childless]
    exact congrArg Node.stop (ite_self _)

/-- A key that a pair spells out is a scalar. -/
theorem childless_of_spelled {ed : Editing} {p : Nat × Nat}
    (h : (spelledKey? ed p).isSome = true) : (ed.node p.1).children = [] := by
  rw [spelledKey?] at h
  split at h
  · next body => rw [Node.children, body]
  · cases h

variable {ed : Editing}

theorem construct_of_spelled {p : Nat × Nat} {key : Value} (h : spelledKey? ed p = some key) :
    ed.tree.construct (ed.node p.1) = .ok key := by
  rw [spelledKey?] at h
  split at h
  · split at h
    · cases h
    · revert h
      cases ed.tree.construct (ed.node p.1) with
      | error e =>
        intro same
        cases same
      | ok v =>
        intro same
        cases same
        rfl
  · cases h

theorem lt_of_itemAt {values : List Value} {m : Nat} {v : Value}
    (h : Value.itemAt values m = .ok v) : m < values.length := by
  rw [Value.itemAt] at h
  rw [if_neg (by omega : ¬ (m : Int) < 0), if_neg (by omega : ¬ (m : Int) < 0)] at h
  split at h
  · next found => simpa using (List.getElem?_eq_some_iff.mp found).1
  · cases h

theorem allowsPair {k v : Node} (scalar : k.children = [])
    (range : k.start.index ≤ ed.trueEnd k) (short : ed.trueEnd v ≤ ed.tree.text.length)
    (side : (stop ≤ k.start.index ∧ stop ≤ v.start.index) ∨ ed.tree.Before v first) :
    AllowsPair ed (Avoids first (ed.tree.text.spanEnd first stop)) k v := by
  have ends : ed.trueEnd k = k.stop.index :=
    congrArg Mark.index (trueEnd_of_childless (t := ed.tree) scalar)
  rcases side with ⟨keyBehind, behind⟩ | before
  · refine ⟨avoids_behind (blankFrom_of_le behind), avoids_behind (blankFrom_of_le (by omega)), ?_⟩
    intro a b erased
    exact erases_behind (Int.ofNat_le.mpr keyBehind) erased
  · have ends : (ed.trueEnd v : Int) ≤ first := Int.ofNat_le.mpr before.stop
    have avoids : ∀ a : Nat, Avoids first (ed.tree.text.spanEnd first stop) a (ed.trueEnd v) :=
      fun a => avoids_before (Int.natCast_nonneg a) ends
    refine ⟨avoids _, avoids _, ?_⟩
    intro a b erased
    exact erases_before (Int.natCast_nonneg _) short before.stop (before.lines v .self) erased

theorem allowsItem {n c : Node} {i dash : Nat} {earlier : List Nat}
    (found : ed.tree.node? i = some n) (inside : c.parent = some i) (short : ed.trueEnd c ≤ ed.tree.text.length)
    (own : ed.tree.IsDash n c earlier dash) (side : stop ≤ dash ∨ ed.tree.Before c first) :
    AllowsItem ed (Avoids first (ed.tree.text.spanEnd first stop)) n.content.column c := by
  have start := own.before
  have near : ∀ {d : Int}, Text.dashBefore ed.tree.text c.start.index n.content.column = .ok d →
      dash ≤ d ∧ d < c.start.index := dashBefore_spec own.opens own.before
  have around : ∀ {parent}, c.parent = some parent → ed.node parent = n := by
    intro parent at'
    rw [inside] at at'
    cases at'
    exact node_of_found found
  rcases side with behind | before
  · refine ⟨avoids_behind (blankFrom_of_le (by omega)), ?_, ?_⟩
    · intro parent at' d h
      rw [around at'] at h
      have near := near h
      obtain ⟨m, rfl⟩ := Int.eq_ofNat_of_zero_le (Int.le_trans (Int.natCast_nonneg _) near.1)
      exact avoids_behind (a := m + 1) (blankFrom_of_le (by omega))
    · intro d h a b erased
      have near := near h
      exact erases_behind (by omega) erased
  · have ends : (ed.trueEnd c : Int) ≤ first := Int.ofNat_le.mpr before.stop
    refine ⟨avoids_before (Int.natCast_nonneg _) ends, ?_, ?_⟩
    · intro parent at' d h
      rw [around at'] at h
      have near := near h
      exact avoids_before (by omega) ends
    · intro d h a b erased
      have near := near h
      exact erases_before (by omega) short before.stop (before.lines c .self) erased

variable (laid : ed.tree.Laid)
include laid

/-- What is beside a span may be changed with all that is in it. -/
theorem allowsWithin_clearOf : AllowsWithin ed (Avoids first (ed.tree.text.spanEnd first stop))
    (ClearOf ed.tree first stop) where
  whole := by
    rintro n ⟨-, behind | before⟩
    · exact avoids_behind (blankFrom_of_le behind)
    · exact avoids_before (Int.natCast_nonneg _) (Int.ofNat_le.mpr before.stop)
  flow := by
    rintro n ⟨-, behind | before⟩ flow
    · exact avoids_behind (blankFrom_of_le behind)
    · have ends := before.stop
      rw [trueEnd_of_flow flow] at ends
      exact avoids_before (Int.natCast_nonneg _) (Int.ofNat_le.mpr ends)
  append := fun _ _ => avoids_empty (Int.natCast_nonneg _)
  child := by
    rintro n ⟨⟨i, found⟩, side⟩ j hj
    obtain ⟨c, at', -, starts, ends⟩ := laid.child i n found j hj
    rw [node_of_found at']
    refine ⟨⟨j, at'⟩, ?_⟩
    rcases side with behind | before
    · exact .inl (Nat.le_trans behind starts)
    · exact .inr (before.child hj at' ends)
  pair := by
    rintro n ⟨⟨i, found⟩, side⟩ p hp spelled
    obtain ⟨k, hk, -, keyStarts, -⟩ := laid.child i n found p.1 (Node.mem_children_of_mem_pairs hp).1
    obtain ⟨v, hv, -, starts, ends⟩ := laid.child i n found p.2 (Node.mem_children_of_mem_pairs hp).2
    have scalar := childless_of_spelled spelled
    rw [node_of_found hk] at scalar ⊢
    rw [node_of_found hv]
    refine allowsPair scalar (laid.range p.1 k hk).1 (laid.range p.2 v hv).2 ?_
    rcases side with behind | before
    · exact .inl ⟨Nat.le_trans behind keyStarts, Nat.le_trans behind starts⟩
    · exact .inr (before.child (Node.mem_children_of_mem_pairs hp).2 hv ends)
  item := by
    rintro n ⟨⟨i, found⟩, side⟩ block j hj
    obtain ⟨m, place⟩ := List.mem_iff_getElem?.mp hj
    have inside : j ∈ n.children := by rwa [Tree.children_of_items hj]
    obtain ⟨c, hc, parent, -, ends⟩ := laid.child i n found j inside
    obtain ⟨dash, own⟩ := laid.dash i n found block m j place c hc
    rw [node_of_found hc]
    refine allowsItem found parent (laid.range j c hc).2 own ?_
    rcases side with behind | before
    · exact .inl (Nat.le_trans behind own.inside)
    · exact .inr (before.child inside hc ends)

/-! ## Siblings -/

variable {i : Nat} {n : Node} (found : ed.tree.node? i = some n) {old new : Value}
include found

theorem spares_of_keepsKey {p : Nat × Nat} (hp : p ∈ n.pairs) {key : Value}
    (built : ed.tree.construct (ed.node p.1) = .ok key) (keeps : KeepsKey old new key) :
    Spares (patchMapping ed n old new) ed.tree.text (ed.node p.1).start.index
      (ed.trueEnd (ed.node p.2)) := by
  obtain ⟨k, hk, -⟩ := laid.child i n found p.1 (Node.mem_children_of_mem_pairs hp).1
  obtain ⟨v, hv, -⟩ := laid.child i n found p.2 (Node.mem_children_of_mem_pairs hp).2
  rw [node_of_found hk] at built ⊢
  rw [node_of_found hv]
  have h := tolerant_splices
    (Avoids k.start.index (ed.tree.text.spanEnd k.start.index (ed.trueEnd v)))
  refine (h.patchEntries ed (writes_any ed) n old new (avoids_empty (Int.natCast_nonneg _)) ?_).run
  intro q hq key' spelled changed
  have other : q ≠ p := by
    rintro rfl
    have same := construct_of_spelled spelled
    rw [node_of_found hk, built] at same
    cases same
    exact changed keeps
  obtain ⟨k', hk', -⟩ := laid.child i n found q.1 (Node.mem_children_of_mem_pairs hq).1
  obtain ⟨w, hw, -⟩ := laid.child i n found q.2 (Node.mem_children_of_mem_pairs hq).2
  have scalar := childless_of_spelled (p := q) (by rw [spelled]; rfl)
  rw [node_of_found hk'] at scalar ⊢
  rw [node_of_found hw]
  have side : (ed.trueEnd v ≤ k'.start.index ∧ ed.trueEnd v ≤ w.start.index) ∨
      ed.tree.Before w k.start.index := by
    rcases (laid.pairs found hp).2 q hq other with behind | before
    · obtain ⟨keyBehind, behind⟩ := behind v hv
      exact .inl ⟨(keyBehind k' hk').stop, (behind w hw).stop⟩
    · exact .inr (before k hk w hw)
  refine ⟨allowsPair scalar (laid.range q.1 k' hk').1 (laid.range q.2 w hw).2 side, ?_⟩
  exact h.patchNode ed (writes_any ed) (allowsWithin_clearOf laid) (anchored_any w)
    ⟨⟨q.2, hw⟩, side.imp And.right id⟩

theorem spares_of_keepsItem (block : n.isFlow = false) {j m : Nat} {id : Option Nat}
    {values : List Value} (next : new = .list id values) (place : n.items[m]? = some j)
    (keeps : KeepsItem old new m) :
    Spares (patchSequence ed n old new) ed.tree.text (ed.node j).start.index
      (ed.trueEnd (ed.node j)) := by
  have hj := List.mem_of_getElem? place
  obtain ⟨c, hc, -⟩ := laid.child i n found j (by rwa [Tree.children_of_items hj])
  rw [node_of_found hc]
  have h := tolerant_splices
    (Avoids c.start.index (ed.tree.text.spanEnd c.start.index (ed.trueEnd c)))
  refine (h.patchSequence ed (writes_any ed) n old new (avoids_empty (Int.natCast_nonneg _)) ?_).run
  intro m' j' place' changed
  have other : m' ≠ m := by
    rintro rfl
    have gone := changed keeps values (by rw [next]; rfl)
    obtain ⟨_, _, -, has, -⟩ := keeps
    rw [next] at has
    have present := lt_of_itemAt has
    omega
  have hj' := List.mem_of_getElem? place'
  obtain ⟨d, hd, parent, -⟩ := laid.child i n found j' (by rwa [Tree.children_of_items hj'])
  obtain ⟨dash, own⟩ := laid.dash i n found block m' j' place' d hd
  rw [node_of_found hd]
  refine allowsItem found parent (laid.range j' d hd).2 own ?_
  rcases Nat.lt_or_gt_of_ne other with earlier | later
  · exact .inr (laid.items found place' place earlier d hd c hc)
  · refine .inl (own.behind j ?_ c hc)
    obtain ⟨inText, rfl⟩ := List.getElem?_eq_some_iff.mp place
    exact List.mem_take_iff_getElem.mpr ⟨m, by omega, rfl⟩

/-- Over a text that a tree is laid out over, patching a mapping splices no character of the pairs
that the new value keeps, and patching a block sequence none of the entries that it keeps: from the
start of the pair or entry to its last character that is not blank. -/
theorem patch_spares_kept (old : Value) :
    (∀ new k v, (k, v) ∈ n.pairs → ∀ key, ed.tree.construct (ed.node k) = .ok key →
      KeepsKey old new key →
        Spares (patchMapping ed n old new) ed.tree.text (ed.node k).start.index
          (ed.trueEnd (ed.node v))) ∧
      (n.isFlow = false → ∀ id values m j, n.items[m]? = some j →
        KeepsItem old (.list id values) m →
          Spares (patchSequence ed n old (.list id values)) ed.tree.text (ed.node j).start.index
            (ed.trueEnd (ed.node j))) := by
  constructor
  · intro new k v hp key built keeps
    exact spares_of_keepsKey laid found hp built keeps
  · intro block id values m j place keeps
    exact spares_of_keepsItem laid found block rfl place keeps

omit laid found

/-! ## A sequence in a mapping, and a key without a value -/

/-- The setting of changes to a text, if that has a tree. -/
def editingOf (text : Text) : Editing :=
  ⟨(Tree.compose text).toOption.getD default, {}⟩

theorem ok_of_isSome {ε α : Type} {x : Except ε α} (h : x.toOption.isSome = true) (d : α) :
    x = .ok (x.toOption.getD d) := by
  cases x with
  | error e => cases h
  | ok a => rfl

theorem compose_editingOf {text : Text} (h : (Tree.compose text).toOption.isSome = true) :
    Tree.compose text = .ok (editingOf text).tree :=
  ok_of_isSome h default

/-- The value of a node, if it has one. -/
def valueAt (ed : Editing) (i : Nat) : Value :=
  (ed.tree.construct (ed.node i)).toOption.getD .null

theorem construct_valueAt {i : Nat} (h : (ed.tree.construct (ed.node i)).toOption.isSome = true) :
    ed.tree.construct (ed.node i) = .ok (valueAt ed i) :=
  ok_of_isSome h .null

theorem found_of_lt {i : Nat} (h : i < ed.tree.nodes.size) :
    ed.tree.node? i = some (ed.node i) := by
  rw [Editing.node, Tree.node?, Array.getElem?_eq_getElem h]
  rfl

instance (old new key : Value) : Decidable (KeepsKey old new key) :=
  decidable_of_iff
    ((match old.held? key, new.held? key with
      | .ok (some held), .ok (some value) => Value.equal held value
      | _, _ => false) = true) <| by
    constructor
    · intro h
      split at h
      · next held value had has => exact ⟨held, value, had, has, h⟩
      · cases h
    · rintro ⟨held, value, had, has, equal⟩
      rw [had, has]
      exact equal

instance (old new : Value) (position : Nat) : Decidable (KeepsItem old new position) :=
  decidable_of_iff
    ((match old.item (.int position), new.item (.int position) with
      | .ok held, .ok value => Value.equal held value
      | _, _ => false) = true) <| by
    constructor
    · intro h
      split at h
      · next held value had has => exact ⟨held, value, had, has, h⟩
      · cases h
    · rintro ⟨held, value, had, has, equal⟩
      rw [had, has]
      exact equal

/-- A pair between others, with a sequence of two entries. -/
def middle : Text :=
  "a: 1\nb:\n- x\n- y\nc: 2".toList

/-- The value of the sequence in `middle`. -/
def middleItems : Value :=
  .list none [.str "x".toList, .str "y".toList]

/-- A value that keeps the pair with the sequence, and nothing else. -/
def middleNext : Value :=
  .dict none [(.str "b".toList, middleItems), (.str "a".toList, .int 3)]

theorem patch_spares_kept_middle :
    (editingOf middle).tree.construct ((editingOf middle).node 0) =
        .ok (valueAt (editingOf middle) 0) ∧
      Spares (patchMapping (editingOf middle) ((editingOf middle).node 0)
          (valueAt (editingOf middle) 0) middleNext)
        (editingOf middle).tree.text ((editingOf middle).node 3).start.index
        ((editingOf middle).trueEnd ((editingOf middle).node 4)) ∧
      Spares (patchSequence (editingOf middle) ((editingOf middle).node 4) middleItems
          (.list none [.str "x".toList]))
        (editingOf middle).tree.text ((editingOf middle).node 5).start.index
        ((editingOf middle).trueEnd ((editingOf middle).node 5)) := by
  have laid : (editingOf middle).tree.Laid := by
    refine Tree.laid_of_lays ?_
    decide +kernel
  have mapping : (editingOf middle).tree.node? 0 = some ((editingOf middle).node 0) :=
    found_of_lt (by decide +kernel)
  have sequence : (editingOf middle).tree.node? 4 = some ((editingOf middle).node 4) :=
    found_of_lt (by decide +kernel)
  have pair : (3, 4) ∈ ((editingOf middle).node 0).pairs := by
    decide +kernel
  have key : (editingOf middle).tree.construct ((editingOf middle).node 3) =
      .ok (valueAt (editingOf middle) 3) :=
    construct_valueAt (by decide +kernel)
  have keepsPair : KeepsKey (valueAt (editingOf middle) 0) middleNext
      (valueAt (editingOf middle) 3) := by
    decide +kernel
  have item : ((editingOf middle).node 4).items[0]? = some 5 := by
    decide +kernel
  have keepsItem : KeepsItem middleItems (.list none [.str "x".toList]) 0 := by
    decide +kernel
  refine ⟨construct_valueAt (by decide +kernel), ?_, ?_⟩
  · exact (patch_spares_kept laid mapping _).1 middleNext 3 4 pair _ key keepsPair
  · exact (patch_spares_kept laid sequence middleItems).2 (by decide +kernel) none _ 0 5 item
      keepsItem

/-- A key without a value in front of a pair. -/
def valueless : Text :=
  "? a\nb: 1".toList

/-- A value that keeps the key of `valueless` without a value, and nothing else. -/
def valuelessNext : Value :=
  .dict none [(.str "a".toList, .null)]

/-- The value that is not there stands at the start of the next line, and erasing that line takes
the break in front of it: a character of the whole span of the pair before, though every span of a
node ends with a character that is not blank. -/
theorem splices_valueless :
    Tree.compose valueless = .ok (editingOf valueless).tree ∧ (editingOf valueless).tree.Laid ∧
      valueless.filter Scan.isBreak = ['\n'] ∧
      ((editingOf valueless).tree.nodes.all fun n =>
        (editingOf valueless).trueEnd n ≤ n.start.index ||
          (valueless[(editingOf valueless).trueEnd n - 1]?).any fun c => !Text.isBlank c) = true ∧
      ∃ old, (editingOf valueless).tree.construct ((editingOf valueless).node 0) = .ok old ∧
        (1, 2) ∈ ((editingOf valueless).node 0).pairs ∧
        ∃ key, (editingOf valueless).tree.construct ((editingOf valueless).node 1) = .ok key ∧
          KeepsKey old valuelessNext key ∧
          ∃ e ∈ ((patchMapping (editingOf valueless) ((editingOf valueless).node 0) old
              valuelessNext).run.run { draft := .ofText valueless }).2.draft.edits,
            ∃ pos < (editingOf valueless).trueEnd ((editingOf valueless).node 2),
              ((editingOf valueless).node 1).start.index ≤ pos ∧ e.start ≤ pos ∧ pos < e.stop := by
  refine ⟨compose_editingOf ?_, Tree.laid_of_lays ?_, ?_, ?_, ?_⟩
  · decide +kernel
  · decide +kernel
  · decide +kernel
  · decide +kernel
  · refine ⟨_, ok_of_isSome ?_ .null, ?_⟩
    · decide +kernel
    · refine ⟨?_, _, ok_of_isSome ?_ .null, ?_, ?_⟩
      · decide +kernel
      · decide +kernel
      · decide +kernel
      · decide +kernel

end Patch

end YamlEdit
