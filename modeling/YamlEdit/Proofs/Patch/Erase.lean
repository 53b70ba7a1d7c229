import YamlEdit.Proofs.Draft.Positions
import YamlEdit.Proofs.Lines
import YamlEdit.Proofs.Patch.Append

/-!
# Erased lines

Erasing entries that have their lines to themselves leaves the other lines as they are, in their
order. Only where an entry takes the last line of the text and the line just before the entry stays,
that line gives up its terminator, so that the text ends as it did before, without one.

Each entry becomes one splice (`cutOf`). Of the splices only the last can start before the lines of
its entry, so they keep apart and come to the text without all of their ranges at once
(`replaced_eq_keep`). Which characters go is then asked line by line.
-/

namespace YamlEdit

/-! ## Edits that only take away -/

namespace Draft

/-- Whether a position is in one of the ranges. -/
def coveredBy (edits : List Edit) (pos : Nat) : Bool :=
  edits.any fun e => decide (e.start ≤ pos) && decide (pos < e.stop)

/-- A text without the characters at some positions; the text starts at position `pos`. -/
def keep (covered : Nat → Bool) : (pos : Nat) → Text → Text
  | _, [] => []
  | pos, c :: r => if covered pos then keep covered (pos + 1) r else c :: keep covered (pos + 1) r

variable {covered : Nat → Bool} {edits : List Edit} {s t : Text} {pos : Nat}

theorem keep_append (covered : Nat → Bool) (pos : Nat) (s t : Text) :
    keep covered pos (s ++ t) = keep covered pos s ++ keep covered (pos + s.length) t := by
  induction s generalizing pos with
  | nil => rfl
  | cons c s ih =>
    have place : pos + 1 + s.length = pos + (c :: s).length := by
      rw [List.length_cons]
      omega
    rw [List.cons_append, keep, keep, ih, place]
    split
    · rfl
    · rfl

theorem keep_eq_nil (h : ∀ i, pos ≤ i → i < pos + s.length → covered i = true) :
    keep covered pos s = [] := by
  induction s generalizing pos with
  | nil => rfl
  | cons c s ih =>
    rw [List.length_cons] at h
    rw [keep, if_pos (h pos (Nat.le_refl _) (by omega))]
    exact ih fun i first last => h i (by omega) (by omega)

theorem keep_eq_self (h : ∀ i, pos ≤ i → i < pos + s.length → covered i = false) :
    keep covered pos s = s := by
  induction s generalizing pos with
  | nil => rfl
  | cons c s ih =>
    rw [List.length_cons] at h
    rw [keep, if_neg (by rw [h pos (Nat.le_refl _) (by omega)]; exact Bool.false_ne_true)]
    exact congrArg (c :: ·) (ih fun i first last => h i (by omega) (by omega))

/-- What is kept of lines is kept of each of them. -/
theorem keep_flatten {f : Text → Nat → Text} {ls : List Text} {k : Nat}
    (h : ∀ i line, ls[i]? = some line →
      keep covered (pos + (ls.take i).flatten.length) line = f line (k + i)) :
    keep covered pos ls.flatten = (ls.zipIdx k).flatMap fun l => f l.1 l.2 := by
  induction ls generalizing pos k with
  | nil => rfl
  | cons line rest ih =>
    have first := h 0 line rfl
    rw [List.flatten_cons, keep_append, List.zipIdx_cons, List.flatMap_cons]
    refine congrArg₂ (· ++ ·) first (ih fun i other found => ?_)
    have next := h (i + 1) other found
    rw [List.take_succ_cons, List.flatten_cons, List.length_append, ← Nat.add_assoc] at next
    rw [next, Nat.add_assoc, Nat.add_comm 1 i]

/-- Edits without fragments come to the text without the characters in their ranges. -/
theorem replaced_eq_keep (h : ∀ e ∈ edits, e.fragment = []) :
    replaced edits s = keep (coveredBy edits) 0 s := by
  have inserted : ∀ pos, insertedAt edits pos = [] := fun pos =>
    List.flatMap_eq_nil_iff.mpr fun e he => h e (List.mem_filter.mp he).1
  have opened : ∀ pos, openedAt edits pos = [] := fun pos =>
    List.flatMap_eq_nil_iff.mpr fun e he => h e (List.mem_filter.mp he).1
  have upTo : ∀ pos, pos ≤ s.length →
      replacedTo edits s pos = keep (coveredBy edits) 0 (s.take pos) := by
    intro pos
    induction pos with
    | zero => exact fun _ => inserted 0
    | succ pos ih =>
      intro inside
      have here : s[pos]? = some s[pos] := List.getElem?_eq_getElem inside
      rw [replacedTo, ih (by omega), inserted, opened, List.take_add_one, keep_append, keptAt, here,
        List.length_take, Nat.min_eq_left (by omega), Nat.zero_add]
      simp only [List.append_nil, Option.toList_some, keep]
      rfl
  rw [replaced, upTo _ (Nat.le_refl _), List.take_length]

end Draft

/-! ## Entries and the lines that stay -/

open Text (lines lineAt lineOffset lineBody splitsBreak)

/-- The span of an entry in a text. -/
structure Entry where
  start : Nat
  stop : Nat
deriving DecidableEq, Repr

/-- An entry that has its lines to itself: nothing but blanks before it on its first line, and at
most a comment behind it on its last one. -/
structure Entry.Owns (s : Text) (e : Entry) : Prop where
  range : e.start ≤ e.stop ∧ e.stop ≤ s.length
  whole : splitsBreak s e.start = false
  before : Text.isBlankText (Text.slice s (lineOffset s (lineAt s e.start)) e.start) = true
  behind : (Text.lineTail? s e.stop).isSome = true

instance (s : Text) (e : Entry) : Decidable (e.Owns s) :=
  decidable_of_iff ((e.start ≤ e.stop ∧ e.stop ≤ s.length) ∧ splitsBreak s e.start = false ∧
      Text.isBlankText (Text.slice s (lineOffset s (lineAt s e.start)) e.start) = true ∧
      (Text.lineTail? s e.stop).isSome = true)
    ⟨fun ⟨range, whole, before, behind⟩ => ⟨range, whole, before, behind⟩,
      fun ⟨range, whole, before, behind⟩ => ⟨range, whole, before, behind⟩⟩

/-- The first entry ends on a line before that of the second. -/
def Entry.Precedes (s : Text) (e f : Entry) : Prop :=
  lineAt s e.stop < lineAt s f.start

instance (s : Text) (e f : Entry) : Decidable (e.Precedes s f) :=
  inferInstanceAs (Decidable (_ < _))

/-- Whether the line of a number belongs to one of the entries. -/
def Entry.takes (s : Text) (entries : List Entry) (k : Nat) : Bool :=
  entries.any fun e => decide (lineAt s e.start ≤ k) && decide (k ≤ lineAt s e.stop)

/-- Whether the entry that holds the last line starts on the line behind that of a number. -/
def Entry.endsBehind (s : Text) (entries : List Entry) (k : Nat) : Bool :=
  entries.any fun e => decide (lineAt s e.start = k + 1) &&
    decide (lineAt s e.stop + 1 = (lines s).length)

/-- What stays of a line: nothing of one that belongs to an entry, and no terminator where the entry
that holds the last line comes next. -/
def Entry.stays (s : Text) (entries : List Entry) (line : Text) (k : Nat) : Text :=
  if takes s entries k then []
  else if endsBehind s entries k then lineBody line
  else line

/-- The lines of a text without those of the entries, one after another. -/
def Entry.remaining (s : Text) (entries : List Entry) : Text :=
  (lines s).zipIdx.flatMap fun l => stays s entries l.1 l.2

namespace Patch

variable {ed : Editing} {s : Text} {entries done rest : List Entry} {e f : Entry} {k : Nat}

/-! ## The splice of an entry -/

/-- Whether the entry takes the break before its lines: it holds the last line of the text, and the
line before the entry stays. -/
def takesBreak (s : Text) (entries : List Entry) (e : Entry) : Prop :=
  lineAt s e.stop + 1 = (lines s).length ∧ lineAt s e.start ≠ 0 ∧
    Entry.takes s entries (lineAt s e.start - 1) = false

instance (s : Text) (entries : List Entry) (e : Entry) : Decidable (takesBreak s entries e) :=
  inferInstanceAs (Decidable (_ ∧ _ ∧ _))

/-- What the entry is erased with: its lines, and the break before them if it takes that. -/
def cutOf (s : Text) (entries : List Entry) (e : Entry) : Draft.Edit :=
  { start :=
      if takesBreak s entries e then Text.breakBefore s (lineOffset s (lineAt s e.start))
      else lineOffset s (lineAt s e.start)
    stop := lineOffset s (lineAt s e.stop + 1)
    fragment := [] }

theorem exists_line (h : k < (lines s).length) : ∃ line, (lines s)[k]? = some line :=
  ⟨_, List.getElem?_eq_getElem h⟩

/-- Behind the first line there is a character before a line. -/
theorem lineOffset_pred_lt (first : k ≠ 0) (inside : k < (lines s).length) :
    lineOffset s (k - 1) < lineOffset s k := by
  obtain ⟨line, found⟩ := exists_line (s := s) (k := k - 1) (by omega)
  have shorter := Text.length_lineBody_lt found (by omega)
  have next := Text.lineOffset_succ found
  rw [Nat.sub_add_cancel (by omega)] at next
  omega

theorem start_cutOf (h : takesBreak s entries e) (inside : e.start ≤ s.length) :
    ∃ line, (lines s)[lineAt s e.start - 1]? = some line ∧
      (cutOf s entries e).start = lineOffset s (lineAt s e.start - 1) + (lineBody line).length ∧
      (cutOf s entries e).start < lineOffset s (lineAt s e.start) := by
  obtain ⟨-, first, -⟩ := id h
  have number := Text.lineAt_lt inside
  obtain ⟨line, found⟩ := exists_line (s := s) (k := lineAt s e.start - 1) (by omega)
  have next : lineAt s e.start - 1 + 1 = lineAt s e.start := by omega
  have before := Text.breakBefore_lineOffset found (by omega)
  have shorter := Text.length_lineBody_lt found (by omega)
  have ends := Text.lineOffset_succ found
  rw [next] at before ends
  refine ⟨line, found, ?_, ?_⟩
  · rw [cutOf, if_pos h, before]
  · rw [cutOf, if_pos h, before]
    dsimp only
    omega

theorem start_cutOf_of_not (h : ¬ takesBreak s entries e) :
    (cutOf s entries e).start = lineOffset s (lineAt s e.start) := by
  rw [cutOf, if_neg h]

theorem start_cutOf_le (entries : List Entry) (inside : e.start ≤ s.length) :
    (cutOf s entries e).start ≤ lineOffset s (lineAt s e.start) := by
  by_cases h : takesBreak s entries e
  · obtain ⟨line, -, -, less⟩ := start_cutOf h inside
    exact Nat.le_of_lt less
  · exact Nat.le_of_eq (start_cutOf_of_not h)

theorem lineAt_le (owns : e.Owns s) : lineAt s e.start ≤ lineAt s e.stop :=
  Text.lineAt_mono owns.range.1 owns.range.2

theorem owns_start (owns : e.Owns s) : e.start ≤ s.length :=
  Nat.le_trans owns.range.1 owns.range.2

theorem not_takesBreak_of_more (entries : List Entry)
    (more : lineAt s e.stop + 1 < (lines s).length) :
    ¬ takesBreak s entries e := fun h => Nat.ne_of_lt more h.1

/-- An entry before another one does not hold the last line. -/
theorem more_of_precedes (later : e.Precedes s f) (owns : f.Owns s) :
    lineAt s e.stop + 1 < (lines s).length := by
  have := Text.lineAt_lt (owns_start owns)
  rw [Entry.Precedes] at later
  omega

/-! ## One entry -/

/-- An entry is erased by its splice, whatever else is erased before it. -/
theorem gives_erase {t : Session} (owns : e.Owns ed.tree.text)
    (covers : lineAt ed.tree.text e.start ≠ 0 →
      t.draft.covers (lineOffset ed.tree.text (lineAt ed.tree.text e.start) - 1) =
        Entry.takes ed.tree.text entries (lineAt ed.tree.text e.start - 1)) :
    Gives (erase ed e.start e.stop) t ⟨⟩
      { t with
        draft := t.draft.splice (cutOf ed.tree.text entries e).start
          (cutOf ed.tree.text entries e).stop [] } := by
  have starts := owns_start owns
  have ends := owns.range.2
  have first : Text.lineStart ed.tree.text (Text.place ed.tree.text e.start) =
      lineOffset ed.tree.text (lineAt ed.tree.text e.start) := by
    rw [Text.place_natCast, Nat.min_eq_right starts, Text.lineStart_eq starts owns.whole]
  obtain ⟨tail, found⟩ := Option.isSome_iff_exists.mp owns.behind
  obtain ⟨inside, next, ended⟩ := Text.skipBreak_lineTail ends found
  have read : Text.lineTailAt ed.tree.text e.stop = .ok (some (tail : Int)) := by
    rw [Text.lineTailAt_natCast ends, found]
    rfl
  have skipped : Text.skipBreakAt ed.tree.text (tail : Int) =
      lineOffset ed.tree.text (lineAt ed.tree.text e.stop + 1) := by
    rw [Text.skipBreakAt_natCast inside, next]
  have blank := owns.before
  rw [← Text.between_natCast] at blank
  refine gives_bind.mpr ⟨some (tail : Int), t, gives_ofPosition.mpr ⟨read, rfl⟩, ?_⟩
  dsimp only
  rw [first, blank, skipped, if_neg (by decide)]
  by_cases whole : lineAt ed.tree.text e.start = 0 ∨
      lineAt ed.tree.text e.stop + 1 < (lines ed.tree.text).length
  · -- the lines go with the break behind them, or nothing comes before them
    have own : ¬ takesBreak ed.tree.text entries e := fun h =>
      whole.elim h.2.1 (Nat.ne_of_lt · h.1)
    rw [if_pos, ← start_cutOf_of_not own]
    · exact gives_splice.mpr rfl
    · rcases whole with zero | more
      · rw [zero, Text.lineOffset_zero]
        rfl
      · rw [next] at ended
        rw [decide_eq_true (by have := ended.mpr more; omega), Bool.or_true]
  · obtain ⟨later, last⟩ := not_or.mp whole
    have number := Text.lineAt_lt ends
    have isLast : lineAt ed.tree.text e.stop + 1 = (lines ed.tree.text).length := by omega
    have ended : tail = lineOffset ed.tree.text (lineAt ed.tree.text e.stop + 1) := by
      have grows := Text.le_skipBreak ed.tree.text tail
      rw [← next]
      omega
    have positive := lineOffset_pred_lt later (Text.lineAt_lt starts)
    rw [if_neg]
    · refine gives_bind.mpr ⟨t.draft, t, gives_draft.mpr ⟨rfl, rfl⟩, ?_⟩
      rw [covers later]
      cases taken : Entry.takes ed.tree.text entries (lineAt ed.tree.text e.start - 1) with
      | false =>
        rw [if_pos (by decide), ended, cutOf, if_pos ⟨isLast, later, taken⟩]
        exact gives_splice.mpr rfl
      | true =>
        have own : ¬ takesBreak ed.tree.text entries e := fun h => by
          rw [h.2.2] at taken
          cases taken
        rw [if_neg (by decide), ended, cutOf, if_neg own]
        exact gives_splice.mpr rfl
    · rw [← ended]
      simp only [Bool.or_eq_true, beq_iff_eq, decide_eq_true_eq, not_or]
      omega

/-! ## All entries -/

theorem stop_cutOf (s : Text) (entries : List Entry) (e : Entry) :
    (cutOf s entries e).stop = lineOffset s (lineAt s e.stop + 1) := rfl

/-- The splices of the entries so far have replaced the character before the lines of the next entry
exactly if the line before them belongs to an entry. -/
theorem covers_cuts {d : Draft} (owns : ∀ f ∈ done ++ e :: rest, f.Owns s)
    (ordered : (done ++ e :: rest).Pairwise (Entry.Precedes s)) (later : lineAt s e.start ≠ 0)
    (edits : d.edits = (done.map (cutOf s entries)).map Draft.Edit.toSplice) :
    d.covers (lineOffset s (lineAt s e.start) - 1) =
      Entry.takes s (done ++ e :: rest) (lineAt s e.start - 1) := by
  have ownsE := owns e (by simp)
  have number := Text.lineAt_lt (owns_start ownsE)
  have before := lineOffset_pred_lt later number
  obtain ⟨-, ofRest, apart⟩ := List.pairwise_append.mp ordered
  -- neither the entry nor one behind it has a line before its first one
  have none : ∀ f ∈ e :: rest, ¬ lineAt s f.start ≤ lineAt s e.start - 1 := by
    intro f hf
    rcases List.mem_cons.mp hf with rfl | hf
    · omega
    · have precedes : lineAt s e.stop < lineAt s f.start := (List.pairwise_cons.mp ofRest).1 f hf
      have := lineAt_le ownsE
      omega
  have here : ∀ f ∈ done, (decide ((cutOf s entries f).toSplice.start ≤
        (lineOffset s (lineAt s e.start) : Int) - 1) &&
      decide ((lineOffset s (lineAt s e.start) : Int) - 1 < (cutOf s entries f).toSplice.stop)) =
      (decide (lineAt s f.start ≤ lineAt s e.start - 1) &&
        decide (lineAt s e.start - 1 ≤ lineAt s f.stop)) := by
    intro f hf
    have more := more_of_precedes (apart f hf e List.mem_cons_self) ownsE
    have inLine : lineOffset s (lineAt s f.start) ≤ lineOffset s (lineAt s e.start) - 1 ∧
        lineOffset s (lineAt s e.start) - 1 < lineOffset s (lineAt s f.stop + 1) ↔
          lineAt s f.start ≤ lineAt s e.start - 1 ∧ lineAt s e.start - 1 ≤ lineAt s f.stop :=
      Text.offsets_iff (by omega) (by rw [Nat.sub_add_cancel (by omega)]; omega)
    rw [← Bool.decide_and, ← Bool.decide_and, decide_eq_decide, ← inLine, Draft.Edit.toSplice,
      start_cutOf_of_not (not_takesBreak_of_more _ more), stop_cutOf]
    dsimp only
    omega
  rw [Draft.covers, edits, List.map_map, List.any_map, Entry.takes, List.any_append]
  have behind : ((e :: rest).any fun f => decide (lineAt s f.start ≤ lineAt s e.start - 1) &&
      decide (lineAt s e.start - 1 ≤ lineAt s f.stop)) = false := by
    rw [List.any_eq_false]
    intro f hf taken
    simp only [Bool.and_eq_true, decide_eq_true_eq] at taken
    exact none f hf taken.1
  rw [behind, Bool.or_false, Bool.eq_iff_iff, List.any_eq_true, List.any_eq_true]
  exact exists_congr fun f => and_congr_right fun hf => (congrArg (· = true) (here f hf)).to_iff

/-- Erasing the entries makes the splice of each, one after another, and reports nothing. -/
theorem gives_eraseAll {t : Session} (entries_eq : entries = done ++ rest)
    (owns : ∀ e ∈ entries, e.Owns ed.tree.text)
    (ordered : entries.Pairwise (Entry.Precedes ed.tree.text))
    (draft : t.draft =
      (Draft.ofText ed.tree.text).spliceAll (done.map (cutOf ed.tree.text entries))) :
    Gives (rest.forM fun e => erase ed e.start e.stop) t ⟨⟩
      { t with
        draft := (Draft.ofText ed.tree.text).spliceAll (entries.map (cutOf ed.tree.text entries)) } := by
  induction rest generalizing done t with
  | nil =>
    rw [List.append_nil] at entries_eq
    subst entries_eq
    rw [← draft]
    exact gives_pure.mpr ⟨rfl, rfl⟩
  | cons e rest ih =>
    have edits : t.draft.edits =
        (done.map (cutOf ed.tree.text entries)).map Draft.Edit.toSplice := by
      rw [draft, Draft.edits_spliceAll]
    have covers : lineAt ed.tree.text e.start ≠ 0 → t.draft.covers _ = _ := fun later =>
      entries_eq ▸ covers_cuts (entries_eq ▸ owns) (entries_eq ▸ ordered) later edits
    have first := gives_erase (owns e (by rw [entries_eq]; simp)) covers
    refine gives_bind.mpr ⟨⟨⟩, _, first, ?_⟩
    have further : entries = (done ++ [e]) ++ rest := by
      rw [entries_eq, List.append_assoc]
      rfl
    refine ih further ?_
    rw [List.map_append, List.map_cons, List.map_nil, Draft.spliceAll_append, ← draft]
    rfl

/-! ## What they come to -/

theorem simultaneous_cuts (owns : ∀ e ∈ entries, e.Owns s)
    (ordered : entries.Pairwise (Entry.Precedes s)) :
    Draft.Simultaneous s.length (entries.map (cutOf s entries)) := by
  -- an entry with another behind it ends where that starts, or before
  have apart : entries.Pairwise fun e f => (cutOf s entries e).start < (cutOf s entries e).stop ∧
      (cutOf s entries e).stop ≤ (cutOf s entries f).start := by
    refine ordered.imp_of_mem fun {e f} he hf precedes => ?_
    have more := more_of_precedes precedes (owns f hf)
    have own := start_cutOf_of_not (not_takesBreak_of_more entries more)
    have filled := Text.lt_lineOffset (owns e he).range.2 more
    have starts := Text.lineOffset_lineAt_le (owns_start (owns e he))
    have range := (owns e he).range.1
    refine ⟨by rw [own, stop_cutOf]; omega, ?_⟩
    rw [stop_cutOf]
    rw [Entry.Precedes] at precedes
    by_cases breaks : takesBreak s entries f
    · -- the line before the other entry stays, so it is not of this one
      obtain ⟨line, -, start, -⟩ := start_cutOf breaks (owns_start (owns f hf))
      have stays := breaks.2.2
      rw [Entry.takes, List.any_eq_false] at stays
      have other := stays e he
      simp only [Bool.and_eq_true, decide_eq_true_eq, not_and] at other
      have := lineAt_le (owns e he)
      have := Text.lineOffset_mono s (show lineAt s e.stop + 1 ≤ lineAt s f.start - 1 by omega)
      omega
    · rw [start_cutOf_of_not breaks]
      exact Text.lineOffset_mono s (by omega)
  refine ⟨?_, ?_, ?_⟩
  · intro edit hedit
    obtain ⟨e, he, rfl⟩ := List.mem_map.mp hedit
    have starts := start_cutOf_le entries (owns_start (owns e he))
    have := Text.lineOffset_mono s (show lineAt s e.start ≤ lineAt s e.stop + 1 from
      Nat.le_succ_of_le (lineAt_le (owns e he)))
    rw [stop_cutOf]
    exact ⟨by omega, Text.lineOffset_le s _⟩
  · exact List.pairwise_map.mpr (apart.imp fun h => .inl h.2)
  · exact List.pairwise_map.mpr (apart.imp fun h empty => absurd empty (Nat.ne_of_lt h.1))

theorem coveredBy_cuts (s : Text) (entries : List Entry) (i : Nat) :
    Draft.coveredBy (entries.map (cutOf s entries)) i = true ↔
      ∃ e ∈ entries, (cutOf s entries e).start ≤ i ∧ i < lineOffset s (lineAt s e.stop + 1) := by
  rw [Draft.coveredBy, List.any_map, List.any_eq_true]
  simp only [Function.comp, Bool.and_eq_true, decide_eq_true_eq]
  exact Iff.rfl

/-- Where a line stays, a character of it only goes with the break before an entry. -/
theorem endsBehind_of_covered {line : Text} {i : Nat} (owns : ∀ e ∈ entries, e.Owns s)
    (found : (lines s)[k]? = some line) (stays : Entry.takes s entries k = false)
    (first : lineOffset s k ≤ i) (last : i < lineOffset s k + line.length)
    (covered : Draft.coveredBy (entries.map (cutOf s entries)) i = true) :
    Entry.endsBehind s entries k = true ∧ lineOffset s k + (lineBody line).length ≤ i := by
  have next := Text.lineOffset_succ found
  obtain ⟨e, he, start, stop⟩ := (coveredBy_cuts s entries i).mp covered
  have upTo := (Text.offsets_iff (s := s) (a := 0) (b := lineAt s e.stop) first
    (by omega)).mp ⟨by rw [Text.lineOffset_zero]; omega, stop⟩
  have other := List.any_eq_false.mp stays e he
  simp only [Bool.and_eq_true, decide_eq_true_eq, not_and] at other
  have behind : k + 1 ≤ lineAt s e.start := by
    by_contra before
    exact other (by omega) upTo.2
  have further := Text.lineOffset_mono s behind
  by_cases breaks : takesBreak s entries e
  · obtain ⟨before, there, start', -⟩ := start_cutOf breaks (owns_start (owns e he))
    have same : lineAt s e.start = k + 1 := by
      by_contra different
      have := Text.lineOffset_mono s (show k + 1 ≤ lineAt s e.start - 1 by omega)
      omega
    rw [same, Nat.add_sub_cancel, found] at there
    cases there
    rw [same, Nat.add_sub_cancel] at start'
    refine ⟨?_, by omega⟩
    rw [Entry.endsBehind, List.any_eq_true]
    exact ⟨e, he, by simp [same, breaks.1]⟩
  · rw [start_cutOf_of_not breaks] at start
    omega

/-- The terminator of a line that stays goes where the entry that holds the last line comes next. -/
theorem covered_of_endsBehind {line : Text} {i : Nat} (owns : ∀ e ∈ entries, e.Owns s)
    (found : (lines s)[k]? = some line) (stays : Entry.takes s entries k = false)
    (closes : Entry.endsBehind s entries k = true)
    (first : lineOffset s k + (lineBody line).length ≤ i) (last : i < s.length) :
    Draft.coveredBy (entries.map (cutOf s entries)) i = true := by
  obtain ⟨e, he, inLines⟩ := List.any_eq_true.mp closes
  simp only [Bool.and_eq_true, decide_eq_true_eq] at inLines
  have breaks : takesBreak s entries e :=
    ⟨inLines.2, by omega, by rw [inLines.1, Nat.add_sub_cancel]; exact stays⟩
  obtain ⟨before, there, start, -⟩ := start_cutOf breaks (owns_start (owns e he))
  rw [inLines.1, Nat.add_sub_cancel, found] at there
  cases there
  rw [inLines.1, Nat.add_sub_cancel] at start
  have ends : lineOffset s (lineAt s e.stop + 1) = s.length := by
    rw [inLines.2, Text.lineOffset_length]
  exact (coveredBy_cuts s entries i).mpr ⟨e, he, by omega, by omega⟩

theorem more_of_endsBehind (owns : ∀ e ∈ entries, e.Owns s)
    (closes : Entry.endsBehind s entries k = true) : k + 1 < (lines s).length := by
  obtain ⟨e, he, inLines⟩ := List.any_eq_true.mp closes
  simp only [Bool.and_eq_true, decide_eq_true_eq] at inLines
  have := Text.lineAt_lt (owns_start (owns e he))
  omega

/-- What the splices leave of a line is what is to stay of it. -/
theorem keep_line {line : Text} (owns : ∀ e ∈ entries, e.Owns s)
    (found : (lines s)[k]? = some line) :
    Draft.keep (Draft.coveredBy (entries.map (cutOf s entries))) (lineOffset s k) line =
      Entry.stays s entries line k := by
  have next := Text.lineOffset_succ found
  have whole := Text.lineOffset_le s (k + 1)
  rw [Entry.stays]
  split
  · next taken =>
    obtain ⟨e, he, inLines⟩ := List.any_eq_true.mp taken
    simp only [Bool.and_eq_true, decide_eq_true_eq] at inLines
    refine Draft.keep_eq_nil fun i first last => (coveredBy_cuts s entries i).mpr ⟨e, he, ?_⟩
    have within := (Text.offsets_iff (s := s) first (by omega)).mpr inLines
    have starts := start_cutOf_le entries (owns_start (owns e he))
    exact ⟨by omega, within.2⟩
  · next stays =>
    have stays : Entry.takes s entries k = false := by simpa using stays
    have uncovered : ∀ i, lineOffset s k ≤ i → i < lineOffset s k + line.length →
        (Entry.endsBehind s entries k = true → i < lineOffset s k + (lineBody line).length) →
        Draft.coveredBy (entries.map (cutOf s entries)) i = false := by
      intro i first last short
      rw [← Bool.not_eq_true]
      intro covered
      obtain ⟨closes, far⟩ := endsBehind_of_covered owns found stays first last covered
      have := short closes
      omega
    split
    · next closes =>
      obtain ⟨-, -, -, -, b, eq, -⟩ := Text.line_split found (more_of_endsBehind owns closes)
      have size := congrArg List.length eq
      rw [List.length_append] at size
      have rest : Draft.keep (Draft.coveredBy (entries.map (cutOf s entries))) (lineOffset s k)
          (lineBody line ++ b.text) = lineBody line := by
        rw [Draft.keep_append, Draft.keep_eq_self, Draft.keep_eq_nil, List.append_nil]
        · intro i first last
          exact covered_of_endsBehind owns found stays closes first (by omega)
        · exact fun i first last => uncovered i first (by omega) fun _ => last
      rwa [← eq] at rest
    · next closes =>
      exact Draft.keep_eq_self fun i first last =>
        uncovered i first last fun here => absurd here closes

/-- Entries that have their lines to themselves are erased without fail, and what is left of the
text are the lines that belong to none of them. -/
theorem gives_eraseAll_remaining (ed : Editing) (notices : List Notice) (entries : List Entry)
    (owns : ∀ e ∈ entries, e.Owns ed.tree.text)
    (ordered : entries.Pairwise (Entry.Precedes ed.tree.text)) :
    ∃ t, Gives (entries.forM fun e => erase ed e.start e.stop)
        { draft := .ofText ed.tree.text, notices } ⟨⟩ t ∧
      t.draft.text = Entry.remaining ed.tree.text entries ∧ t.notices = notices := by
  have entries_eq : entries = [] ++ entries := rfl
  refine ⟨_, gives_eraseAll entries_eq owns ordered rfl, ?_, rfl⟩
  dsimp only
  have empty : ∀ e ∈ entries.map (cutOf ed.tree.text entries), e.fragment = [] := by
    intro edit hedit
    obtain ⟨e, -, rfl⟩ := List.mem_map.mp hedit
    rfl
  have line : ∀ i line, (lines ed.tree.text)[i]? = some line →
      Draft.keep (Draft.coveredBy (entries.map (cutOf ed.tree.text entries)))
        (0 + lineOffset ed.tree.text i) line =
          Entry.stays ed.tree.text entries line (0 + i) := by
    intro i line found
    rw [Nat.zero_add, Nat.zero_add]
    exact keep_line owns found
  have whole := Draft.keep_flatten line
  rw [Text.flatten_lines] at whole
  rw [Draft.text_spliceAll (simultaneous_cuts owns ordered), Draft.replaced_eq_keep empty, whole]
  rfl

/-- Breaks of all three kinds, a comment, and an entry on the last two lines. -/
def broken : Editing :=
  { tree := { text := "k: 0\r\na: 1\r\nb: 2 # two\nc: 3\rd:\n  e: 4".toList }
    layout := {} }

theorem gives_eraseAll_remaining_broken :
    (∀ e ∈ [Entry.mk 6 10, ⟨12, 16⟩, ⟨28, 37⟩], e.Owns broken.tree.text) ∧
      [Entry.mk 6 10, ⟨12, 16⟩, ⟨28, 37⟩].Pairwise (Entry.Precedes broken.tree.text) ∧
      ∃ t, Gives ([Entry.mk 6 10, ⟨12, 16⟩, ⟨28, 37⟩].forM fun e => erase broken e.start e.stop)
          { draft := .ofText broken.tree.text } ⟨⟩ t ∧
        t.draft.text = "k: 0\r\nc: 3".toList := by
  have owns : ∀ e ∈ [Entry.mk 6 10, ⟨12, 16⟩, ⟨28, 37⟩], e.Owns broken.tree.text := by decide
  have ordered : [Entry.mk 6 10, ⟨12, 16⟩, ⟨28, 37⟩].Pairwise
      (Entry.Precedes broken.tree.text) := by decide
  obtain ⟨t, gives, text, -⟩ := gives_eraseAll_remaining broken [] _ owns ordered
  exact ⟨owns, ordered, t, gives, text.trans (by decide)⟩

/-- A text whose last entry has two lines, and one with an empty line. -/
def twoLines : Editing :=
  { tree := { text := "a: 1\nb:\n  c: 2".toList }, layout := {} }

def emptyLine : Editing :=
  { tree := { text := "x\r\n\r\ny".toList }, layout := {} }

/-- Lines do not only lose their terminator where the line before the last one of the text stays: it
is the line before the entry that counts. And of an empty line only half of the break goes if the
span lies between the two characters of it. -/
theorem not_erases_linesExactly :
    ((Entry.mk 5 14).Owns twoLines.tree.text ∧
      lines twoLines.tree.text = ["a: 1\n".toList, "b:\n".toList, "  c: 2".toList] ∧
      (List.range 3).map (Entry.takes twoLines.tree.text [⟨5, 14⟩]) = [false, true, true] ∧
      ∃ t, Gives (erase twoLines 5 14) { draft := .ofText twoLines.tree.text } ⟨⟩ t ∧
        t.draft.text = "a: 1".toList ∧ t.draft.text ≠ "a: 1\n".toList) ∧
    (lines emptyLine.tree.text = ["x\r\n".toList, "\r\n".toList, "y".toList] ∧
      lineAt emptyLine.tree.text 4 = 1 ∧
      Text.isBlankText (Text.slice emptyLine.tree.text (lineOffset emptyLine.tree.text 1) 4) = true ∧
      (Text.lineTail? emptyLine.tree.text 4).isSome = true ∧
      ∃ t, Gives (erase emptyLine 4 4) { draft := .ofText emptyLine.tree.text } ⟨⟩ t ∧
        t.draft.text = "x\r\n\ry".toList ∧ t.draft.text ≠ "x\r\ny".toList) := by
  refine ⟨⟨by decide, by decide, by decide, _, rfl, by decide, by decide⟩, by decide, by decide,
    by decide, by decide, _, rfl, by decide, by decide⟩

end Patch

end YamlEdit
