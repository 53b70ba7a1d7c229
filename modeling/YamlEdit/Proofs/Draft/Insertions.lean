import Mathlib.Data.List.Nodup
import Mathlib.Data.List.Perm.Subperm
import YamlEdit.Proofs.Draft.Simultaneous

/-!
# The order of two insertions at one position

Two insertions at one position of the first text, made after edits whose ranges have no character in
common. They stand in the order of the calls if no edit has the position strictly inside of its
range. If one has, the position stands for the start of the range, which the first insertion does
not move: the second one goes in front of the first, or into it where the place lies behind the end
of the text, and the order is kept only if that comes to the same.

Besides the rule for one insertion this takes that no place is negative: the ranges that end at or
before a position have at most as many characters as there are before it (`widths_le`).
-/

namespace YamlEdit.Draft

namespace Edit

/-- No character of the first text is in the ranges of both edits. A range without characters, that
of an insertion, may lie anywhere. -/
def Disjoint (e f : Edit) : Prop :=
  min e.stop f.stop ≤ max e.start f.start

instance (e f : Edit) : Decidable (Disjoint e f) :=
  inferInstanceAs (Decidable (_ ≤ _))

end Edit

/-- Edits of a text of some length whose ranges have no character in common. -/
structure DisjointRanges (length : Nat) (edits : List Edit) : Prop where
  ranges : ∀ e ∈ edits, e.start ≤ e.stop ∧ e.stop ≤ length
  disjoint : edits.Pairwise Edit.Disjoint

instance (length : Nat) (edits : List Edit) : Decidable (DisjointRanges length edits) :=
  decidable_of_iff ((∀ e ∈ edits, e.start ≤ e.stop ∧ e.stop ≤ length) ∧
      edits.Pairwise Edit.Disjoint)
    ⟨fun ⟨ranges, disjoint⟩ => ⟨ranges, disjoint⟩, fun ⟨ranges, disjoint⟩ => ⟨ranges, disjoint⟩⟩

/-- How many characters of the first text are in the ranges of edits. -/
def widths : List Edit → Nat
  | [] => 0
  | e :: r => e.stop - e.start + widths r

/-- The text with a chunk put in where a position lies. A place behind the text stands for its
end. -/
def textWith (d : Draft) (pos : Int) (chunk : Text) : Text :=
  d.text.take (Text.place d.text (d.locate pos)) ++ chunk ++
    d.text.drop (Text.place d.text (d.locate pos))

/-- How far behind the end of the text a position lies. It does where an edit replaced a range with
an insertion strictly inside of it: the range went with the insertion, which counts on. -/
def overrun (d : Draft) (pos : Int) : Nat :=
  (d.locate pos).toNat - d.text.length

variable {d : Draft} {edits : List Edit} {pos : Int} {s : Text} {length p : Nat}

/-! ## No place is negative -/

/-- The positions of the characters in the ranges of edits. -/
def covered (edits : List Edit) : List Nat :=
  edits.flatMap fun e => List.range' e.start (e.stop - e.start)

theorem length_covered (edits : List Edit) : (covered edits).length = widths edits := by
  induction edits with
  | nil => rfl
  | cons e r ih =>
    rw [covered] at ih ⊢
    rw [List.flatMap_cons, List.length_append, List.length_range', ih, widths]

/-- Ranges without a common character that end at or before a position have at most as many
characters as there are before it. -/
theorem widths_le (disjoint : edits.Pairwise Edit.Disjoint) (before : ∀ e ∈ edits, e.stop ≤ p) :
    widths edits ≤ p := by
  have once : (covered edits).Nodup := by
    refine List.nodup_flatMap.mpr ⟨fun e _ => List.nodup_range', disjoint.imp fun {e f} apart => ?_⟩
    intro pos inE inF
    have := List.mem_range'_1.mp inE
    have := List.mem_range'_1.mp inF
    rw [Edit.Disjoint] at apart
    omega
  have inside : covered edits ⊆ List.range p := by
    intro pos covers
    obtain ⟨e, he, inE⟩ := List.mem_flatMap.mp covers
    have := List.mem_range'_1.mp inE
    have := before e he
    exact List.mem_range.mpr (by omega)
  have counted := (once.subperm inside).length_le
  rwa [List.length_range, length_covered] at counted

/-- Edits move a position to the front by at most the characters in their ranges. -/
theorem neg_widths_le_growth (edits : List Edit) (ranges : ∀ e ∈ edits, e.start ≤ e.stop) :
    -(widths edits : Int) ≤ (edits.map Edit.toSplice).foldr (fun e shift => e.growth + shift) 0 := by
  induction edits with
  | nil => simp [widths]
  | cons e r ih =>
    have rest := ih fun f hf => ranges f (List.mem_cons_of_mem _ hf)
    have range := ranges e List.mem_cons_self
    simp only [widths, List.map_cons, List.foldr_cons, Splice.growth, Edit.toSplice] at rest ⊢
    omega

theorem outside_nonneg (s : Text) (edits : List Edit) (p : Nat) :
    0 ≤ ((ofText s).spliceAll edits).outside p := by
  rw [outside, edits_spliceAll]
  cases found : (edits.map Edit.toSplice).find? fun f =>
      decide (f.start < (p : Int)) && decide ((p : Int) < f.stop) with
  | none => exact Int.natCast_nonneg p
  | some f =>
    obtain ⟨e, -, rfl⟩ := List.mem_map.mp (List.mem_of_find?_eq_some found)
    exact Int.natCast_nonneg e.start

theorem locate_nonneg (h : DisjointRanges s.length edits) (p : Nat) :
    0 ≤ ((ofText s).spliceAll edits).locate p := by
  obtain ⟨q, hq⟩ := Int.eq_ofNat_of_zero_le (outside_nonneg s edits p)
  -- the edits that move the position are those whose ranges end at or before its outside
  let moving := edits.filter fun e => decide (e.stop ≤ q)
  have shift : ((ofText s).spliceAll edits).shiftAt q =
      (moving.map Edit.toSplice).foldr (fun e shift => e.growth + shift) 0 := by
    have same : ((fun e : Splice => decide (e.stop ≤ (q : Int))) ∘ Edit.toSplice) =
        fun e => decide (e.stop ≤ q) := by
      funext e
      simp [Edit.toSplice]
    rw [shiftAt, edits_spliceAll, List.filter_map, same]
  have most : widths moving ≤ q := by
    refine widths_le (h.disjoint.filter _) fun e he => ?_
    simpa using (List.mem_filter.mp he).2
  have least := neg_widths_le_growth moving fun e he => (h.ranges e (List.mem_filter.mp he).1).1
  rw [locate, hq, shift]
  omega

/-! ## Two insertions -/

theorem place_of_nonneg (s : Text) (start : 0 ≤ pos) :
    Text.place s pos = min s.length pos.toNat := by
  rw [Text.place, if_neg (by omega)]

/-- A cut of a text with a chunk in it, made inside of the chunk. -/
theorem cut_chunk {k m : Nat} {t chunk : Text} (before : k ≤ t.length) (inside : m ≤ chunk.length) :
    (t.take k ++ chunk ++ t.drop k).take (k + m) = t.take k ++ chunk.take m ∧
      (t.take k ++ chunk ++ t.drop k).drop (k + m) = chunk.drop m ++ t.drop k := by
  have here : (t.take k).length = k := by
    rw [List.length_take]
    omega
  have further : m - chunk.length = 0 := by omega
  constructor
  · rw [List.append_assoc, List.take_append, here, Nat.add_sub_cancel_left,
      List.take_append_of_le_length inside, List.take_of_length_le (by omega)]
  · rw [List.append_assoc, List.drop_append, here, Nat.add_sub_cancel_left,
      List.drop_append_of_le_length inside, List.drop_eq_nil_of_le (by omega), List.nil_append]

/-- Where the second of two insertions cuts the text that has the first one. -/
theorem place_second (start : 0 ≤ d.locate pos) (chunk : Text) :
    Text.place (d.splice pos pos chunk).text ((d.splice pos pos chunk).locate pos) =
      Text.place d.text (d.locate pos) +
        if d.Inside pos then min chunk.length (d.overrun pos) else chunk.length := by
  have grown : (d.splice pos pos chunk).text.length = d.text.length + chunk.length := by
    show (d.text.take _ ++ chunk ++ d.text.drop _).length = _
    simp only [List.length_append, List.length_take, List.length_drop]
    omega
  rw [locate_insert, place_of_nonneg _ start, overrun]
  by_cases inside : d.Inside pos
  · rw [if_pos inside, if_pos inside, place_of_nonneg _ (by omega), grown]
    omega
  · rw [if_neg inside, if_neg inside, place_of_nonneg _ (by omega), grown]
    omega

/-- The second insertion goes behind the first, unless an edit has the position strictly inside. -/
theorem text_insert_insert (start : 0 ≤ d.locate pos) (a b : Text) :
    ((d.splice pos pos a).splice pos pos b).text = d.textWith pos
      (if d.Inside pos then a.take (d.overrun pos) ++ b ++ a.drop (d.overrun pos) else a ++ b) := by
  have before : Text.place d.text (d.locate pos) ≤ d.text.length := Text.place_le _ _
  show (d.splice pos pos a).text.take (Text.place (d.splice pos pos a).text
      ((d.splice pos pos a).locate pos)) ++ b ++ (d.splice pos pos a).text.drop
      (Text.place (d.splice pos pos a).text ((d.splice pos pos a).locate pos)) = _
  rw [place_second start, textWith]
  show (d.textWith pos a).take _ ++ b ++ (d.textWith pos a).drop _ = _
  rw [textWith]
  by_cases inside : d.Inside pos
  · obtain ⟨front, rear⟩ := cut_chunk before (Nat.min_le_left a.length (d.overrun pos))
    rw [if_pos inside, if_pos inside, front, rear]
    rcases Nat.le_total a.length (d.overrun pos) with whole | part
    · rw [Nat.min_eq_left whole, List.take_length, List.drop_length, List.take_of_length_le whole,
        List.drop_eq_nil_of_le whole]
      simp only [List.append_assoc, List.nil_append, List.append_nil]
    · rw [Nat.min_eq_right part]
      simp only [List.append_assoc]
  · obtain ⟨front, rear⟩ := cut_chunk before (Nat.le_refl a.length)
    rw [if_neg inside, if_neg inside, front, rear, List.take_length, List.drop_length]
    simp only [List.append_assoc, List.nil_append]

theorem textWith_inj {chunk chunk' : Text} :
    d.textWith pos chunk = d.textWith pos chunk' ↔ chunk = chunk' := by
  rw [textWith, textWith, List.append_cancel_right_eq, List.append_cancel_left_eq]

/-- Two insertions at one position, made one after the other, stand one behind the other exactly if
no earlier edit has the position strictly inside of its range, or if going in front of the first one
(of what is left of it behind the end of the text) comes to the same for the second. -/
theorem insertions_inOrder_iff (h : DisjointRanges s.length edits) (p : Nat) (a b : Text) :
    ((((ofText s).spliceAll edits).splice p p a).splice p p b).text =
        ((ofText s).spliceAll edits).textWith p (a ++ b) ↔
      (((ofText s).spliceAll edits).Inside p →
        a.drop (((ofText s).spliceAll edits).overrun p) ++ b =
          b ++ a.drop (((ofText s).spliceAll edits).overrun p)) := by
  rw [text_insert_insert (locate_nonneg h p), textWith_inj]
  by_cases inside : ((ofText s).spliceAll edits).Inside p
  · have whole := List.take_append_drop (((ofText s).spliceAll edits).overrun p) a
    generalize ((ofText s).spliceAll edits).overrun p = n at whole ⊢
    rw [if_pos inside]
    constructor
    · intro same _
      rw [← whole, List.append_assoc, List.append_assoc, whole] at same
      exact (List.append_cancel_left same).symm
    · intro same
      rw [List.append_assoc, ← same inside, ← List.append_assoc, whole]
  · rw [if_neg inside]
    exact ⟨fun _ here => absurd here inside, fun _ => rfl⟩

/-- Three characters went, an insertion before them came, and a fragment stands behind them. -/
def patched : List Edit :=
  [⟨1, 4, []⟩, ⟨1, 1, "<".toList⟩, ⟨4, 5, "XYZ".toList⟩]

/-- At the end of a range both insertions stand in the order of the calls; strictly inside of it two
that differ do not. -/
theorem insertions_inOrder_iff_patched :
    DisjointRanges "abcdef".toList.length patched ∧
      (((((ofText "abcdef".toList).spliceAll patched).splice 4 4 "i".toList).splice 4 4
        "j".toList).text = "a<ijXYZf".toList) ∧
      ¬ (((((ofText "abcdef".toList).spliceAll patched).splice 2 2 "i".toList).splice 2 2
        "j".toList).text = ((ofText "abcdef".toList).spliceAll patched).textWith 2 "ij".toList) := by
  have disjoint : DisjointRanges "abcdef".toList.length patched := by decide
  refine ⟨disjoint, ?_, ?_⟩
  · exact ((insertions_inOrder_iff disjoint 4 "i".toList "j".toList).mpr (by decide)).trans
      (by decide)
  · intro inOrder
    exact absurd ((insertions_inOrder_iff disjoint 2 "i".toList "j".toList).mp inOrder) (by decide)

/-- Strictly inside of the one range that was erased, the second insertion goes in front of the
first: the two do not even stand one behind the other anywhere in the text. -/
theorem not_insertions_inOrder_erased :
    DisjointRanges "abcdef".toList.length [⟨1, 5, []⟩] ∧
      ((((ofText "abcdef".toList).spliceAll [⟨1, 5, []⟩]).splice 3 3 "X".toList).splice 3 3
        "Y".toList).text = "aYXf".toList ∧
      ¬ "X".toList ++ "Y".toList <:+: "aYXf".toList := by
  decide

end YamlEdit.Draft
