import Mathlib.Data.List.Pairwise
import YamlEdit.Proofs.Draft.Simultaneous

/-!
# Positions of the first text after edits

Edits that can be made at once leave every position of the first text a place. The places are in the
order of the positions and lie in the edited text. A position strictly inside of a replaced range
lies where the fragment of the range starts, and a character that no edit replaced is where its
position lies.

The second side is again `replacedTo`, which never asks where anything has moved. A position that no
range has strictly inside of it lies behind the replaced text up to it (`locate_spliceAll`), and any
other one lies where the start of its range does. So each position has an edge, free of all ranges,
that it shares its place with (`Edge`), and the rest is read off the replaced text at the edges.
-/

namespace YamlEdit.Draft

/-- Where the positions of a text lie in what a draft has made of it by edits. -/
structure Tracks (d : Draft) (s : Text) (edits : List Edit) : Prop where
  /-- The places are in the order of the positions. -/
  mono : ∀ p q : Nat, p ≤ q → q ≤ s.length → d.locate p ≤ d.locate q
  /-- The places lie in the edited text. -/
  within : ∀ p : Nat, p ≤ s.length → d.Within p
  /-- A position strictly inside of a range lies where the fragment of the range starts: behind the
  replaced text up to the range. -/
  opened : ∀ e ∈ edits, ∀ p : Nat, e.start < p → p < e.stop →
    d.locate p = (replacedTo edits s e.start).length ∧
      ∃ behind, d.text = replacedTo edits s e.start ++ e.fragment ++ behind
  /-- What no edit replaced is where its position lies, the end of the text included. -/
  kept : ∀ p : Nat, p ≤ s.length → d.covers p = false → d.text[(d.locate p).toNat]? = s[p]?

variable {edits : List Edit} {e f : Edit} {s : Text} {length p q : Nat}

/-! ## Ranges that keep apart -/

theorem Edit.Apart.symm (h : Edit.Apart e f) : Edit.Apart f e :=
  Or.symm h

instance : Std.Symm Edit.Apart :=
  ⟨fun _ _ => Edit.Apart.symm⟩

/-- Two edits that have one character in their ranges are one edit. -/
theorem Simultaneous.eq_of_covered (h : Simultaneous length edits) (he : e ∈ edits) (hf : f ∈ edits)
    (inE : e.start ≤ p ∧ p < e.stop) (inF : f.start ≤ p ∧ p < f.stop) : e = f := by
  by_contra different
  rcases h.apart.forall he hf different with before | behind
  · omega
  · omega

/-- The start of a range is not strictly inside of another one. -/
theorem Simultaneous.free_start (h : Simultaneous length edits) (he : e ∈ edits)
    (filled : e.start < e.stop) : Free edits e.start := by
  intro f hf inside
  have same := h.eq_of_covered he hf ⟨Nat.le_refl _, filled⟩ ⟨Nat.le_of_lt inside.1, inside.2⟩
  rw [same] at inside
  exact Nat.lt_irrefl _ inside.1

theorem Simultaneous.of_isPrefix {done : List Edit} (h : Simultaneous length edits)
    (part : done <+: edits) : Simultaneous length done := by
  obtain ⟨rest, rfl⟩ := part
  exact ⟨fun f hf => h.ranges f (List.mem_append_left _ hf), (List.pairwise_append.mp h.apart).1,
    (List.pairwise_append.mp h.order).1⟩

/-! ## The text replaced up to a position -/

theorem replacedTo_isPrefix (edits : List Edit) (s : Text) (h : p ≤ q) :
    replacedTo edits s p <+: replacedTo edits s q := by
  induction q, h using Nat.le_induction with
  | base => exact List.prefix_refl _
  | succ q h ih =>
    refine ih.trans ?_
    rw [replacedTo, List.append_assoc, List.append_assoc]
    exact List.prefix_append _ _

/-- The only range that starts where an edit has its range is that of the edit. -/
theorem openedAt_of_mem (h : Simultaneous length edits) (he : e ∈ edits)
    (filled : e.start < e.stop) : openedAt edits e.start = e.fragment := by
  obtain ⟨before, after, rfl⟩ := List.append_of_mem he
  obtain ⟨-, behind, apart⟩ := List.pairwise_append.mp h.apart
  have none : ∀ f, Edit.Apart e f → ¬ (f.start = e.start ∧ e.start < f.stop) := by
    rintro f (first | first) here
    · omega
    · omega
  have noneBefore : before.filter (fun f => f.start == e.start && decide (e.start < f.stop)) = [] := by
    rw [List.filter_eq_nil_iff]
    intro f hf here
    refine none f (apart f hf e List.mem_cons_self).symm ?_
    simpa using here
  have noneAfter : after.filter (fun f => f.start == e.start && decide (e.start < f.stop)) = [] := by
    rw [List.filter_eq_nil_iff]
    intro f hf here
    refine none f ((List.pairwise_cons.mp behind).1 f hf) ?_
    simpa using here
  rw [openedAt, List.filter_append, List.filter_cons, noneBefore, noneAfter]
  simp [filled]

/-- Behind the text replaced up to a range comes its fragment. -/
theorem replaced_of_mem (h : Simultaneous s.length edits) (he : e ∈ edits)
    (filled : e.start < e.stop) :
    ∃ behind, replaced edits s = replacedTo edits s e.start ++ e.fragment ++ behind := by
  have range := h.ranges e he
  obtain ⟨behind, eq⟩ := replacedTo_isPrefix edits s (show e.start + 1 ≤ s.length by omega)
  refine ⟨keptAt edits s e.start ++ insertedAt edits (e.start + 1) ++ behind, ?_⟩
  rw [replaced, ← eq, replacedTo, openedAt_of_mem h he filled]
  simp only [List.append_assoc]

/-- A character that is in no range comes behind the text replaced up to it. -/
theorem replaced_of_kept (outside : ∀ e ∈ edits, ¬ (e.start ≤ p ∧ p < e.stop))
    (inside : p < s.length) :
    ∃ behind, replaced edits s = replacedTo edits s p ++ s[p] :: behind := by
  have opened : openedAt edits p = [] := by
    rw [openedAt, List.flatMap_eq_nil_iff]
    intro f hf
    obtain ⟨hf, here⟩ := List.mem_filter.mp hf
    simp only [Bool.and_eq_true, beq_iff_eq, decide_eq_true_eq] at here
    exact absurd ⟨by omega, here.2⟩ (outside f hf)
  have kept : keptAt edits s p = [s[p]] := by
    have none : (edits.any fun f => decide (f.start ≤ p) && decide (p < f.stop)) = false := by
      rw [List.any_eq_false]
      intro f hf here
      exact outside f hf (by simpa using here)
    rw [keptAt, none, List.getElem?_eq_getElem inside]
    rfl
  obtain ⟨behind, eq⟩ := replacedTo_isPrefix edits s (Nat.succ_le_of_lt inside)
  refine ⟨insertedAt edits (p + 1) ++ behind, ?_⟩
  rw [replaced, ← eq, Nat.succ_eq_add_one, replacedTo, opened, kept]
  simp only [List.append_assoc, List.append_nil, List.cons_append, List.nil_append]

/-! ## Edges -/

/-- The position that another one shares its place with: itself, or the start of the range that it
is strictly inside of. -/
structure Edge (edits : List Edit) (p q : Nat) : Prop where
  free : Free edits q
  le : q ≤ p
  inside : q = p ∨ ∃ e ∈ edits, e.start = q ∧ e.start < p ∧ p < e.stop

theorem Edge.of_free (free : Free edits p) : Edge edits p p :=
  ⟨free, Nat.le_refl _, .inl rfl⟩

theorem Edge.of_inside (h : Simultaneous length edits) (he : e ∈ edits) (first : e.start < p)
    (last : p < e.stop) : Edge edits p e.start :=
  ⟨h.free_start he (by omega), by omega, .inr ⟨e, he, rfl, first, last⟩⟩

theorem Simultaneous.exists_edge (h : Simultaneous length edits) (p : Nat) :
    ∃ q, Edge edits p q := by
  by_cases inside : ∃ e ∈ edits, e.start < p ∧ p < e.stop
  · obtain ⟨e, he, first, last⟩ := inside
    exact ⟨e.start, .of_inside h he first last⟩
  · exact ⟨p, .of_free fun e he here => inside ⟨e, he, here⟩⟩

/-- Positions have their edges in their own order: an edge between a range and a position inside of
it would be inside of the range too. -/
theorem Edge.mono {p' q' : Nat} (first : Edge edits p q) (second : Edge edits p' q')
    (le : p ≤ p') : q ≤ q' := by
  by_contra greater
  rcases second.inside with self | ⟨e, he, start, -, stop⟩
  · have := first.le
    omega
  · have := first.le
    exact first.free e he ⟨by omega, by omega⟩

/-- A position strictly inside of a replaced range stands for the start of the range. -/
theorem outside_spliceAll (h : Simultaneous s.length edits) (he : e ∈ edits) (first : e.start < p)
    (last : p < e.stop) : ((ofText s).spliceAll edits).outside p = e.start := by
  rw [outside, edits_spliceAll]
  cases found : (edits.map Edit.toSplice).find? fun f =>
      decide (f.start < (p : Int)) && decide ((p : Int) < f.stop) with
  | none =>
    have none := List.find?_eq_none.mp found e.toSplice (List.mem_map_of_mem he)
    simp [Edit.toSplice, first, last] at none
  | some f =>
    obtain ⟨g, hg, rfl⟩ := List.mem_map.mp (List.mem_of_find?_eq_some found)
    have inside := List.find?_some found
    simp only [Edit.toSplice, Bool.and_eq_true, decide_eq_true_eq, Int.ofNat_lt] at inside
    have same := h.eq_of_covered hg he (p := p) ⟨by omega, by omega⟩ ⟨by omega, by omega⟩
    rw [same]
    rfl

/-- A position lies behind the text that is replaced up to its edge. -/
theorem Edge.locate_eq (edge : Edge edits p q) (h : Simultaneous s.length edits)
    (inside : p ≤ s.length) :
    ((ofText s).spliceAll edits).locate p = (replacedTo edits s q).length := by
  have le := edge.le
  rw [← locate_spliceAll h edge.free (by omega)]
  rcases edge.inside with rfl | ⟨e, he, rfl, first, last⟩
  · rfl
  · rw [locate, locate, outside_spliceAll h he first last,
      outside_of_not_inside edge.free.not_inside]

/-! ## What the places are -/

theorem within_spliceAll (h : Simultaneous s.length edits) (inside : p ≤ s.length) :
    ((ofText s).spliceAll edits).Within p := by
  obtain ⟨q, edge⟩ := h.exists_edge p
  have le := (replacedTo_isPrefix edits s (Nat.le_trans edge.le inside)).length_le
  refine ⟨?_, ?_⟩
  · rw [edge.locate_eq h inside]
    omega
  · rw [edge.locate_eq h inside, text_spliceAll h, replaced]
    omega

theorem covers_spliceAll (s : Text) (edits : List Edit) (p : Nat) :
    ((ofText s).spliceAll edits).covers p = false ↔
      ∀ e ∈ edits, ¬ (e.start ≤ p ∧ p < e.stop) := by
  rw [covers, edits_spliceAll, List.any_map, List.any_eq_false]
  simp [Edit.toSplice]

theorem getElem?_locate (h : Simultaneous s.length edits) (inside : p ≤ s.length)
    (outside : ∀ e ∈ edits, ¬ (e.start ≤ p ∧ p < e.stop)) :
    ((ofText s).spliceAll edits).text[(((ofText s).spliceAll edits).locate p).toNat]? = s[p]? := by
  have free : Free edits p := fun e he here => outside e he ⟨by omega, here.2⟩
  rw [locate_spliceAll h free inside, text_spliceAll h, Int.toNat_natCast]
  rcases Nat.lt_or_eq_of_le inside with before | rfl
  · obtain ⟨behind, eq⟩ := replaced_of_kept outside before
    rw [eq, List.getElem?_append_right (Nat.le_refl _), Nat.sub_self, List.getElem?_cons_zero,
      List.getElem?_eq_getElem before]
  · rw [replaced, List.getElem?_eq_none (Nat.le_refl _), List.getElem?_eq_none (Nat.le_refl _)]

/-- After each of the edits, every position of the first text has its place in the edited text. -/
theorem tracks_spliceAll (h : Simultaneous s.length edits) :
    ∀ done, done <+: edits → Tracks ((ofText s).spliceAll done) s done := by
  intro done part
  have sim := h.of_isPrefix part
  refine ⟨?mono, fun p => within_spliceAll sim, ?opened, ?kept⟩
  case mono =>
    intro p q le inside
    obtain ⟨p', first⟩ := sim.exists_edge p
    obtain ⟨q', second⟩ := sim.exists_edge q
    rw [first.locate_eq sim (Nat.le_trans le inside), second.locate_eq sim inside]
    exact Int.ofNat_le.mpr (replacedTo_isPrefix done s (first.mono second le)).length_le
  case opened =>
    intro e he p first last
    have range := sim.ranges e he
    obtain ⟨behind, eq⟩ := replaced_of_mem sim he (Nat.lt_trans first last)
    refine ⟨(Edge.of_inside sim he first last).locate_eq sim (by omega), behind, ?_⟩
    rw [text_spliceAll sim, eq]
  case kept =>
    intro p inside untouched
    exact getElem?_locate sim inside ((covers_spliceAll s done p).mp untouched)

/-- After five of the edits in no order of places: the range from 0 up to 2 became three characters,
the one at 2 went, and what was inserted at 3 stands before the fragment of the range from 3. -/
theorem tracks_spliceAll_scattered :
    Simultaneous "abcdef".toList.length scattered ∧ scattered.take 5 <+: scattered ∧
      Tracks ((ofText "abcdef".toList).spliceAll (scattered.take 5)) "abcdef".toList
        (scattered.take 5) ∧
      ((ofText "abcdef".toList).spliceAll (scattered.take 5)).text = "uvwijXYZf".toList ∧
      (List.range 7).map (fun p : Nat =>
        ((ofText "abcdef".toList).spliceAll (scattered.take 5)).locate p) =
          [0, 0, 3, 5, 5, 8, 9] := by
  have simultaneous : Simultaneous "abcdef".toList.length scattered := by decide
  have part : scattered.take 5 <+: scattered := List.take_prefix 5 scattered
  exact ⟨simultaneous, part, tracks_spliceAll simultaneous (scattered.take 5) part, by decide,
    by decide⟩

end YamlEdit.Draft
