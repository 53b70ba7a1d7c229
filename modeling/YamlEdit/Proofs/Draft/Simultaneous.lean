import Mathlib.Data.List.Induction
import Mathlib.Data.Nat.Init
import YamlEdit.Proofs.Draft

/-!
# Edits that come to one replacement

A draft takes its edits one after another and works out each time where a position of the first text
has gone. Edits of ranges that keep apart come to the same as replacing all ranges at once, in
whatever order they are made; only insertions at one position keep the order of the calls. There is
one condition on the order besides: a range that ends at a position is replaced before anything is
inserted there, because what was inserted at the end of a range counts as part of it.

The second side is `replaced`, which walks through the first text once and never asks where anything
has moved. An edit splits it in three (`Apart.split`): what is up to the edit, the range or the
fragment, and what is behind, and the outer two are the same before the edit and after it.
-/

namespace YamlEdit.Draft

/-- An edit as it is asked for: a range of the first text and what is to stand in its place. A range
without characters asks for an insertion. -/
structure Edit where
  start : Nat
  stop : Nat
  fragment : Text
deriving DecidableEq, Repr

namespace Edit

/-- The edit as a draft remembers it. -/
def toSplice (e : Edit) : Splice :=
  ⟨e.start, e.stop, e.fragment.length⟩

/-- One edit keeps apart from another if one of the two ends before the other starts. -/
def Apart (e f : Edit) : Prop :=
  e.stop ≤ f.start ∨ f.stop ≤ e.start

/-- The first edit is no insertion at the end of the range of the second. -/
def Leaves (e f : Edit) : Prop :=
  e.start = e.stop → f.start < f.stop → f.stop ≠ e.start

instance (e f : Edit) : Decidable (Apart e f) :=
  inferInstanceAs (Decidable (_ ∨ _))

instance (e f : Edit) : Decidable (Leaves e f) :=
  inferInstanceAs (Decidable (_ → _ → _))

end Edit

/-- Makes edits one after another. -/
def spliceAll (d : Draft) (edits : List Edit) : Draft :=
  edits.foldl (fun d e => d.splice e.start e.stop e.fragment) d

/-- By how much each of the edits changes the length of the text when its turn comes. -/
def growths (d : Draft) : List Edit → List Int
  | [] => []
  | e :: r =>
    d.growthOf e.start e.stop e.fragment :: growths (d.splice e.start e.stop e.fragment) r

/-- By how much all of the edits together change it. -/
def totalGrowth (d : Draft) (edits : List Edit) : Int :=
  (d.growths edits).foldr (· + ·) 0

/-! ## All ranges at once -/

/-- The fragments that are inserted at a position, in the order of the edits. -/
def insertedAt (edits : List Edit) (pos : Nat) : Text :=
  (edits.filter fun e => e.start == pos && e.stop == pos).flatMap (·.fragment)

/-- The fragment of the range that starts at a position. -/
def openedAt (edits : List Edit) (pos : Nat) : Text :=
  (edits.filter fun e => e.start == pos && pos < e.stop).flatMap (·.fragment)

/-- The character at a position, unless it is in one of the ranges. -/
def keptAt (edits : List Edit) (s : Text) (pos : Nat) : Text :=
  if edits.any fun e => e.start ≤ pos && pos < e.stop then [] else s[pos]?.toList

/-- The text up to a position with its ranges replaced, and what is inserted at the position. -/
def replacedTo (edits : List Edit) (s : Text) : (pos : Nat) → Text
  | 0 => insertedAt edits 0
  | pos + 1 =>
    replacedTo edits s pos ++ openedAt edits pos ++ keptAt edits s pos ++ insertedAt edits (pos + 1)

/-- The text with every range replaced by its fragment at once. -/
def replaced (edits : List Edit) (s : Text) : Text :=
  replacedTo edits s s.length

/-- Edits of a text of some length that can be made at once. -/
structure Simultaneous (length : Nat) (edits : List Edit) : Prop where
  ranges : ∀ e ∈ edits, e.start ≤ e.stop ∧ e.stop ≤ length
  apart : edits.Pairwise Edit.Apart
  order : edits.Pairwise Edit.Leaves

instance (length : Nat) (edits : List Edit) : Decidable (Simultaneous length edits) :=
  decidable_of_iff ((∀ e ∈ edits, e.start ≤ e.stop ∧ e.stop ≤ length) ∧
      edits.Pairwise Edit.Apart ∧ edits.Pairwise Edit.Leaves)
    ⟨fun ⟨ranges, apart, order⟩ => ⟨ranges, apart, order⟩,
      fun ⟨ranges, apart, order⟩ => ⟨ranges, apart, order⟩⟩

variable {edits : List Edit} {e : Edit} {s : Text} {length pos : Nat}

/-! ## One edit more -/

theorem insertedAt_append (edits : List Edit) (e : Edit) (pos : Nat) :
    insertedAt (edits ++ [e]) pos =
      insertedAt edits pos ++ if e.start = pos ∧ e.stop = pos then e.fragment else [] := by
  unfold insertedAt
  rw [List.filter_append, List.flatMap_append]
  by_cases here : e.start = pos ∧ e.stop = pos
  · simp [here.1, here.2]
  · rw [if_neg here]
    have none : (e.start == pos && e.stop == pos) = false := by simpa using here
    simp [none]

theorem openedAt_append (edits : List Edit) (e : Edit) (pos : Nat) :
    openedAt (edits ++ [e]) pos =
      openedAt edits pos ++ if e.start = pos ∧ pos < e.stop then e.fragment else [] := by
  unfold openedAt
  rw [List.filter_append, List.flatMap_append]
  by_cases here : e.start = pos ∧ pos < e.stop
  · simp [here.1, here.2]
  · rw [if_neg here]
    have none : (e.start == pos && decide (pos < e.stop)) = false := by simpa using here
    simp [none]

theorem keptAt_append (edits : List Edit) (e : Edit) (s : Text) (pos : Nat) :
    keptAt (edits ++ [e]) s pos =
      if e.start ≤ pos ∧ pos < e.stop then [] else keptAt edits s pos := by
  unfold keptAt
  rw [List.any_append]
  by_cases here : e.start ≤ pos ∧ pos < e.stop
  · simp [here.1, here.2]
  · rw [if_neg here]
    have none : (decide (e.start ≤ pos) && decide (pos < e.stop)) = false := by simpa using here
    simp [none]

/-- An edit keeps apart from others, and none of them is inserted at the end of its range. -/
structure Apart (edits : List Edit) (e : Edit) : Prop where
  range : e.start ≤ e.stop
  apart : ∀ f ∈ edits, f.Apart e
  order : ∀ f ∈ edits, f.Leaves e
  ranges : ∀ f ∈ edits, f.start ≤ f.stop

namespace Apart

/-- Nothing starts inside of the range, and nothing covers a character of it. -/
theorem keptAt_eq (h : Apart edits e) (first : e.start ≤ pos) (last : pos < e.stop) (s : Text) :
    openedAt edits pos = [] ∧ keptAt edits s pos = s[pos]?.toList := by
  have outside : ∀ f ∈ edits, ¬ (f.start ≤ pos ∧ pos < f.stop) := by
    intro f hf covers
    rcases h.apart f hf with before | behind
    · omega
    · omega
  constructor
  · have none : edits.filter (fun f => f.start == pos && decide (pos < f.stop)) = [] := by
      rw [List.filter_eq_nil_iff]
      intro f hf here
      simp only [Bool.and_eq_true, beq_iff_eq, decide_eq_true_eq] at here
      exact outside f hf ⟨by omega, here.2⟩
    rw [openedAt, none]
    rfl
  · have none : (edits.any fun f => decide (f.start ≤ pos) && decide (pos < f.stop)) = false := by
      rw [List.any_eq_false]
      intro f hf here
      simp only [Bool.and_eq_true, decide_eq_true_eq] at here
      exact outside f hf here
    rw [keptAt, none]
    rfl

/-- Nothing was inserted behind the start of the range, its end included. -/
theorem insertedAt_eq (h : Apart edits e) (first : e.start < pos) (last : pos ≤ e.stop) :
    insertedAt edits pos = [] := by
  have none : edits.filter (fun f => f.start == pos && f.stop == pos) = [] := by
    rw [List.filter_eq_nil_iff]
    intro f hf here
    simp only [Bool.and_eq_true, beq_iff_eq] at here
    rcases h.apart f hf with before | behind
    · omega
    · exact h.order f hf (by omega) (by omega) (by omega)
  rw [insertedAt, none]
  rfl

/-- Up to the end of its range the text is as it was up to the start, with the range behind. -/
theorem replacedTo_range (h : Apart edits e) (s : Text) (first : e.start ≤ pos)
    (last : pos ≤ e.stop) :
    replacedTo edits s pos = replacedTo edits s e.start ++ Text.slice s e.start pos := by
  induction pos, first using Nat.le_induction with
  | base => simp [Text.slice]
  | succ pos first ih =>
    obtain ⟨opened, kept⟩ := h.keptAt_eq first last s
    have grown : Text.slice s e.start (pos + 1) =
        Text.slice s e.start pos ++ s[pos]?.toList := by
      have further : pos + 1 - e.start = pos - e.start + 1 := by omega
      have there : e.start + (pos - e.start) = pos := by omega
      rw [Text.slice, Text.slice, further, List.take_add_one, List.getElem?_drop, there]
    rw [replacedTo, ih (by omega), opened, kept, h.insertedAt_eq (by omega) last, grown]
    simp

/-- The edit changes nothing before its range. -/
theorem replacedTo_before (h : Apart edits e) (s : Text)
    (before : pos < e.start ∨ pos = e.start ∧ e.start < e.stop) :
    replacedTo (edits ++ [e]) s pos = replacedTo edits s pos := by
  have range := h.range
  induction pos with
  | zero =>
    rw [replacedTo, replacedTo, insertedAt_append, if_neg (by omega), List.append_nil]
  | succ pos ih =>
    rw [replacedTo, replacedTo, ih (by omega), openedAt_append, keptAt_append, insertedAt_append,
      if_neg (by omega), if_neg (by omega), if_neg (by omega), List.append_nil, List.append_nil]

/-- With the edit, its fragment stands behind the text up to the start of its range. -/
theorem replacedTo_stop (h : Apart edits e) (s : Text) :
    replacedTo (edits ++ [e]) s e.stop = replacedTo edits s e.start ++ e.fragment := by
  have range := h.range
  rcases Nat.eq_or_lt_of_le range with insertion | replacement
  · rw [← insertion]
    cases hp : e.start with
    | zero =>
      rw [replacedTo, replacedTo, insertedAt_append, if_pos (by omega)]
    | succ pos =>
      rw [replacedTo, replacedTo, h.replacedTo_before s (by omega), openedAt_append, keptAt_append,
        insertedAt_append, if_neg (by omega), if_neg (by omega), if_pos (by omega)]
      simp
  · -- the fragment stands where the range starts, and nothing comes behind it up to the end
    have inside : ∀ pos, e.start < pos → pos ≤ e.stop →
        replacedTo (edits ++ [e]) s pos = replacedTo edits s e.start ++ e.fragment := by
      intro pos first
      induction pos, first using Nat.le_induction with
      | base =>
        intro last
        obtain ⟨opened, -⟩ := h.keptAt_eq (Nat.le_refl _) replacement s
        rw [Nat.succ_eq_add_one, replacedTo, h.replacedTo_before s (.inr ⟨rfl, replacement⟩),
          openedAt_append, keptAt_append, insertedAt_append, opened,
          h.insertedAt_eq (Nat.lt_succ_self _) last, if_pos ⟨rfl, replacement⟩,
          if_pos ⟨Nat.le_refl _, replacement⟩, if_neg (by omega)]
        simp
      | succ pos first ih =>
        intro last
        have after : e.start ≤ pos := by omega
        obtain ⟨opened, -⟩ := h.keptAt_eq after last s
        rw [replacedTo, ih (by omega), openedAt_append, keptAt_append, insertedAt_append, opened,
          h.insertedAt_eq (by omega) last, if_neg (by omega), if_pos (by omega), if_neg (by omega)]
        simp
    exact inside e.stop replacement (Nat.le_refl _)

/-- The edit changes its range only: what is behind is the same with it and without it. -/
theorem split (h : Apart edits e) (s : Text) (behind : e.stop ≤ pos) :
    ∃ rest, replacedTo edits s pos =
        replacedTo edits s e.start ++ Text.slice s e.start e.stop ++ rest ∧
      replacedTo (edits ++ [e]) s pos = replacedTo edits s e.start ++ e.fragment ++ rest := by
  induction pos, behind using Nat.le_induction with
  | base =>
    refine ⟨[], ?_, ?_⟩
    · rw [List.append_nil, h.replacedTo_range s h.range (Nat.le_refl _)]
    · rw [List.append_nil, h.replacedTo_stop s]
  | succ pos behind ih =>
    obtain ⟨rest, old, new⟩ := ih
    have range := h.range
    refine ⟨rest ++ openedAt edits pos ++ keptAt edits s pos ++ insertedAt edits (pos + 1), ?_, ?_⟩
    · rw [replacedTo, old]
      simp only [List.append_assoc]
    · rw [replacedTo, new, openedAt_append, keptAt_append, insertedAt_append, if_neg (by omega),
        if_neg (by omega), if_neg (by omega)]
      simp only [List.append_assoc, List.append_nil]

end Apart

/-! ## Where positions go -/

theorem replacedTo_nil (s : Text) (pos : Nat) : replacedTo [] s pos = s.take pos := by
  induction pos with
  | zero => rfl
  | succ pos ih =>
    rw [replacedTo, ih, List.take_add_one]
    simp [insertedAt, openedAt, keptAt]

theorem Simultaneous.init (h : Simultaneous length (edits ++ [e])) : Simultaneous length edits :=
  ⟨fun f hf => h.ranges f (List.mem_append_left _ hf), (List.pairwise_append.mp h.apart).1,
    (List.pairwise_append.mp h.order).1⟩

theorem Simultaneous.last (h : Simultaneous length (edits ++ [e])) : Apart edits e := by
  have apart := (List.pairwise_append.mp h.apart).2.2
  have order := (List.pairwise_append.mp h.order).2.2
  refine ⟨(h.ranges e (by simp)).1, ?_, ?_, ?_⟩
  · intro f hf
    exact apart f hf e (by simp)
  · intro f hf
    exact order f hf e (by simp)
  · intro f hf
    exact (h.ranges f (List.mem_append_left _ hf)).1

theorem spliceAll_append (d : Draft) (edits : List Edit) (e : Edit) :
    d.spliceAll (edits ++ [e]) = (d.spliceAll edits).splice e.start e.stop e.fragment := by
  simp [spliceAll, List.foldl_append]

theorem edits_spliceAll (s : Text) (edits : List Edit) :
    ((ofText s).spliceAll edits).edits = edits.map Edit.toSplice := by
  induction edits using List.reverseRecOn with
  | nil => rfl
  | append_singleton edits e ih =>
    rw [spliceAll_append, edits_splice, ih, List.map_append]
    rfl

/-- A position that no edit has strictly inside of its range. -/
def Free (edits : List Edit) (pos : Nat) : Prop :=
  ∀ f ∈ edits, ¬ (f.start < pos ∧ pos < f.stop)

theorem Free.not_inside (h : Free edits pos) : ¬ ((ofText s).spliceAll edits).Inside pos := by
  rintro ⟨f, hf, inside⟩
  rw [edits_spliceAll] at hf
  obtain ⟨e, he, rfl⟩ := List.mem_map.mp hf
  have first : (e.start : Int) < pos := inside.1
  have last : (pos : Int) < e.stop := inside.2
  exact h e he ⟨by omega, by omega⟩

theorem shiftAt_append (d : Draft) (start stop pos : Int) (fragment : Text) :
    (d.splice start stop fragment).shiftAt pos =
      d.shiftAt pos + if stop ≤ pos then (fragment.length : Int) - (stop - start) else 0 := by
  have sum : ∀ (l : List Splice) (shift : Int),
      l.foldr (fun e shift => e.growth + shift) shift =
        l.foldr (fun e shift => e.growth + shift) 0 + shift := by
    intro l shift
    induction l with
    | nil => simp
    | cons f l ih =>
      rw [List.foldr_cons, List.foldr_cons, ih]
      omega
  unfold shiftAt
  rw [edits_splice, List.filter_append, List.foldr_append, sum]
  by_cases before : stop ≤ pos
  · simp [before, Splice.growth]
  · simp [before]

/-- A position lies as far down as the replaced text up to it is long. -/
theorem locate_spliceAll (h : Simultaneous s.length edits) (free : Free edits pos)
    (inside : pos ≤ s.length) :
    ((ofText s).spliceAll edits).locate pos = (replacedTo edits s pos).length := by
  induction edits using List.reverseRecOn with
  | nil =>
    rw [replacedTo_nil, List.length_take, Nat.min_eq_left inside]
    exact locate_ofText s pos
  | append_singleton edits e ih =>
    have last := h.last
    have range := last.range
    have before : Free edits pos := fun f hf => free f (List.mem_append_left _ hf)
    have apart := free e (by simp)
    have old := ih h.init before
    rw [locate, outside_of_not_inside before.not_inside] at old
    rw [locate, outside_of_not_inside free.not_inside, spliceAll_append, shiftAt_append]
    by_cases behind : e.stop ≤ pos
    · obtain ⟨rest, without, with'⟩ := last.split s behind
      have length : (Text.slice s e.start e.stop).length = e.stop - e.start := by
        rw [Text.slice, List.length_take, List.length_drop]
        have := (h.ranges e (by simp)).2
        omega
      rw [without] at old
      rw [with', if_pos (by omega)]
      simp only [List.length_append, length] at old ⊢
      omega
    · rw [if_neg (by omega), last.replacedTo_before s (by omega)]
      omega

/-! ## The text -/

theorem Apart.free (h : Apart edits e) : Free edits e.start ∧ Free edits e.stop := by
  have range := h.range
  constructor
  · intro f hf inside
    rcases h.apart f hf with before | behind
    · omega
    · have := h.ranges f hf
      omega
  · intro f hf inside
    rcases h.apart f hf with before | behind
    · omega
    · omega

theorem place_of_le {t : Text} {at' : Nat} (h : at' ≤ t.length) : Text.place t (at' : Int) = at' := by
  rw [Text.place_natCast, Nat.min_eq_right h]

/-- What a draft has made of a text is the text with all ranges replaced at once. -/
theorem text_spliceAll (h : Simultaneous s.length edits) :
    ((ofText s).spliceAll edits).text = replaced edits s := by
  induction edits using List.reverseRecOn with
  | nil =>
    rw [replaced, replacedTo_nil, List.take_length]
    rfl
  | append_singleton edits e ih =>
    have last := h.last
    have inside := h.ranges e (by simp)
    obtain ⟨startFree, stopFree⟩ := last.free
    obtain ⟨rest, without, with'⟩ := last.split s inside.2
    have old := ih h.init
    rw [replaced, without] at old
    have upToStop := last.replacedTo_range s last.range (Nat.le_refl _)
    rw [spliceAll_append, replaced, with']
    show ((ofText s).spliceAll edits).text.take (Text.place _ (((ofText s).spliceAll edits).locate
      e.start)) ++ e.fragment ++ ((ofText s).spliceAll edits).text.drop (Text.place _
        (((ofText s).spliceAll edits).locate e.stop)) = _
    rw [locate_spliceAll h.init startFree (by omega), locate_spliceAll h.init stopFree inside.2, old,
      upToStop, place_of_le (by simp), place_of_le (by simp), List.drop_left' rfl,
      List.append_assoc (replacedTo edits s e.start) (Text.slice s e.start e.stop),
      List.take_left' rfl]

/-! ## Its length -/

theorem growth_last (h : Simultaneous s.length (edits ++ [e])) :
    ((ofText s).spliceAll edits).growthOf e.start e.stop e.fragment =
      (replaced (edits ++ [e]) s).length - (replaced edits s).length := by
  have last := h.last
  have inside := h.ranges e (by simp)
  obtain ⟨startFree, stopFree⟩ := last.free
  obtain ⟨rest, without, with'⟩ := last.split s inside.2
  have upToStop := last.replacedTo_range s last.range (Nat.le_refl _)
  rw [growthOf, locate_spliceAll h.init startFree (by omega),
    locate_spliceAll h.init stopFree inside.2, upToStop, replaced, replaced, without, with']
  simp only [List.length_append]
  omega

theorem totalGrowth_append (d : Draft) (edits : List Edit) (e : Edit) :
    d.totalGrowth (edits ++ [e]) =
      d.totalGrowth edits + (d.spliceAll edits).growthOf e.start e.stop e.fragment := by
  induction edits generalizing d with
  | nil => exact Int.add_comm ..
  | cons f r ih =>
    have rest := ih (d.splice f.start f.stop f.fragment)
    show d.growthOf f.start f.stop f.fragment +
      (d.splice f.start f.stop f.fragment).totalGrowth (r ++ [e]) = _
    rw [rest, ← Int.add_assoc]
    rfl

theorem delta_spliceAll (d : Draft) (edits : List Edit) :
    (d.spliceAll edits).delta = d.delta + d.totalGrowth edits := by
  induction edits generalizing d with
  | nil => exact (Int.add_zero _).symm
  | cons e r ih =>
    have rest := ih (d.splice e.start e.stop e.fragment)
    have first : (d.splice e.start e.stop e.fragment).delta =
        d.delta + d.growthOf e.start e.stop e.fragment := rfl
    rw [first, Int.add_assoc] at rest
    exact rest

theorem totalGrowth_eq (h : Simultaneous s.length edits) :
    (ofText s).totalGrowth edits = (replaced edits s).length - s.length := by
  induction edits using List.reverseRecOn with
  | nil =>
    rw [replaced, replacedTo_nil, List.take_length]
    exact (Int.sub_self _).symm
  | append_singleton edits e ih =>
    rw [totalGrowth_append, ih h.init, growth_last h]
    omega

/-- Edits one after another replace all their ranges at once, and both the change of length that the
draft keeps and the sum of those that the edits answer are how much longer the text has become. -/
theorem spliceAll_eq_replaced (h : Simultaneous s.length edits) :
    ((ofText s).spliceAll edits).text = replaced edits s ∧
      ((ofText s).spliceAll edits).delta =
        ((ofText s).spliceAll edits).text.length - s.length ∧
      (ofText s).totalGrowth edits = ((ofText s).spliceAll edits).text.length - s.length := by
  have total := totalGrowth_eq h
  refine ⟨text_spliceAll h, ?_, ?_⟩
  · rw [delta_spliceAll, text_spliceAll h, total]
    exact Int.zero_add _
  · rw [text_spliceAll h, total]

/-- Edits in no order of places: ranges that touch, insertions between them, and two insertions at
one position with another edit in between. -/
def scattered : List Edit :=
  [⟨3, 5, "XYZ".toList⟩, ⟨2, 3, []⟩, ⟨3, 3, "i".toList⟩, ⟨0, 2, "uvw".toList⟩, ⟨3, 3, "j".toList⟩,
    ⟨2, 2, "k".toList⟩]

theorem spliceAll_eq_replaced_scattered :
    Simultaneous "abcdef".toList.length scattered ∧
      ((ofText "abcdef".toList).spliceAll scattered).text = "uvwkijXYZf".toList ∧
      ((ofText "abcdef".toList).spliceAll scattered).delta = 4 ∧
      (ofText "abcdef".toList).totalGrowth scattered = 4 := by
  have simultaneous : Simultaneous "abcdef".toList.length scattered := by decide
  obtain ⟨text, delta, total⟩ := spliceAll_eq_replaced simultaneous
  have written : replaced scattered "abcdef".toList = "uvwkijXYZf".toList := by decide
  rw [text, written] at delta total
  exact ⟨simultaneous, text.trans written, delta, total⟩

end YamlEdit.Draft
