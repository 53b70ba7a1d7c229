import YamlEdit.Draft

/-!
# Insertions at one place

What several insertions at one position of the first text come to. Where the position is still in
the text, each of them goes behind the ones before it. Where the position lies inside of a range
that an edit replaced, it stands for the start of that range, which no insertion moves, so each of
them goes in front of the ones before it.
-/

namespace YamlEdit.Draft

/-- A position strictly inside of a replaced range. -/
def Inside (d : Draft) (pos : Int) : Prop :=
  ∃ e ∈ d.edits, e.start < pos ∧ pos < e.stop

instance (d : Draft) (pos : Int) : Decidable (d.Inside pos) :=
  inferInstanceAs (Decidable (∃ e ∈ d.edits, e.start < pos ∧ pos < e.stop))

/-- A position that lies in the text as it is now. -/
structure Within (d : Draft) (pos : Int) : Prop where
  start : 0 ≤ d.locate pos
  stop : d.locate pos ≤ d.text.length

/-- Insertions at a position, one after another. -/
def insertAll (d : Draft) (pos : Int) (chunks : List Text) : Draft :=
  chunks.foldl (fun d chunk => d.splice pos pos chunk) d

variable {d : Draft} {pos : Int}

/-! ## Where a position lies -/

theorem outside_of_not_inside (h : ¬ d.Inside pos) : d.outside pos = pos := by
  rw [outside]
  cases hf : d.edits.find? fun e => e.start < pos && pos < e.stop with
  | none => rfl
  | some e =>
    have found := List.find?_some hf
    simp only [Bool.and_eq_true, decide_eq_true_eq] at found
    exact absurd ⟨e, List.mem_of_find?_eq_some hf, found⟩ h

theorem outside_lt_of_inside (h : d.Inside pos) : d.outside pos < pos := by
  obtain ⟨e, he, inside⟩ := h
  rw [outside]
  cases hf : d.edits.find? fun e => e.start < pos && pos < e.stop with
  | none =>
    have none := List.find?_eq_none.mp hf e he
    simp [inside.1, inside.2] at none
  | some e =>
    have found := List.find?_some hf
    simp only [Bool.and_eq_true, decide_eq_true_eq] at found
    exact found.1

/-! ## One insertion -/

@[simp] theorem outside_insert (d : Draft) (at' pos : Int) (chunk : Text) :
    (d.splice at' at' chunk).outside pos = d.outside pos := by
  have empty : (decide (at' < pos) && decide (pos < at')) = false := by
    simp only [Bool.and_eq_false_iff, decide_eq_false_iff_not]
    omega
  unfold outside
  rw [edits_splice, List.find?_append]
  cases d.edits.find? fun e => e.start < pos && pos < e.stop with
  | some e => rfl
  | none =>
    rw [Option.none_or, List.find?_singleton]
    dsimp only
    rw [empty]
    rfl

theorem inside_insert (d : Draft) (at' pos : Int) (chunk : Text) :
    (d.splice at' at' chunk).Inside pos ↔ d.Inside pos := by
  rw [Inside]
  rw [edits_splice]
  constructor
  · rintro ⟨e, he, inside⟩
    rcases List.mem_append.mp he with old | new
    · exact ⟨e, old, inside⟩
    · rw [List.mem_singleton.mp new] at inside
      dsimp only at inside
      omega
  · rintro ⟨e, he, inside⟩
    exact ⟨e, List.mem_append_left _ he, inside⟩

theorem shiftAt_insert (d : Draft) (at' pos : Int) (chunk : Text) :
    (d.splice at' at' chunk).shiftAt pos =
      d.shiftAt pos + if at' ≤ pos then (chunk.length : Int) else 0 := by
  have sum : ∀ (l : List Splice) (e : Splice),
      (l ++ [e]).foldr (fun e shift => e.growth + shift) 0 =
        l.foldr (fun e shift => e.growth + shift) 0 + e.growth := by
    intro l e
    induction l with
    | nil => simp
    | cons f l ih =>
      rw [List.cons_append, List.foldr_cons, ih, List.foldr_cons]
      omega
  unfold shiftAt
  rw [edits_splice, List.filter_append]
  by_cases before : at' ≤ pos
  · have kept : [Splice.mk at' at' chunk.length].filter (fun e => decide (e.stop ≤ pos)) =
        [⟨at', at', chunk.length⟩] := by
      simp [before]
    rw [kept, sum, if_pos before]
    simp [Splice.growth]
  · have dropped : [Splice.mk at' at' chunk.length].filter (fun e => decide (e.stop ≤ pos)) = [] := by
      simp [before]
    rw [dropped, List.append_nil, if_neg before, Int.add_zero]

/-- An insertion moves its own position behind it, unless an edit replaced that. -/
theorem locate_insert (d : Draft) (pos : Int) (chunk : Text) :
    (d.splice pos pos chunk).locate pos =
      d.locate pos + if d.Inside pos then 0 else (chunk.length : Int) := by
  unfold locate
  dsimp only
  rw [outside_insert, shiftAt_insert]
  by_cases inside : d.Inside pos
  · have less := outside_lt_of_inside inside
    rw [if_neg (by omega), if_pos inside]
    omega
  · rw [outside_of_not_inside inside, if_pos (Int.le_refl pos), if_neg inside]
    omega

theorem text_insert (h : d.Within pos) (chunk : Text) :
    (d.splice pos pos chunk).text = d.text.take (d.locate pos).toNat ++ chunk ++
      d.text.drop (d.locate pos).toNat := by
  have start := h.start
  have stop := h.stop
  have here : Text.place d.text (d.locate pos) = (d.locate pos).toNat := by
    rw [Text.place, if_neg (by omega)]
    omega
  show d.text.take (Text.place d.text (d.locate pos)) ++ chunk ++
    d.text.drop (Text.place d.text (d.locate pos)) = _
  rw [here]

theorem Within.insert (h : d.Within pos) (chunk : Text) : (d.splice pos pos chunk).Within pos := by
  have start := h.start
  have stop := h.stop
  have grown : (d.splice pos pos chunk).text.length = d.text.length + chunk.length := by
    rw [text_insert h]
    simp only [List.length_append, List.length_take, List.length_drop]
    omega
  refine ⟨?_, ?_⟩
  · rw [locate_insert]
    split <;> omega
  · rw [locate_insert, grown]
    split <;> omega

/-! ## Several insertions -/

/-- Insertions at one position stand in their order, or in the reverse order where the position was
inside of a replaced range. -/
theorem text_insertAll (h : d.Within pos) (chunks : List Text) :
    (d.insertAll pos chunks).text = d.text.take (d.locate pos).toNat ++
      (if d.Inside pos then chunks.reverse else chunks).flatten ++
      d.text.drop (d.locate pos).toNat := by
  induction chunks generalizing d with
  | nil =>
    show d.text = _
    split <;> simp
  | cons chunk rest ih =>
    have start := h.start
    have stop := h.stop
    have here : (d.text.take (d.locate pos).toNat).length = (d.locate pos).toNat := by
      rw [List.length_take]
      omega
    show ((d.splice pos pos chunk).insertAll pos rest).text = _
    rw [ih (h.insert chunk), text_insert h, locate_insert]
    by_cases inside : d.Inside pos
    · rw [if_pos ((inside_insert d pos pos chunk).mpr inside), if_pos inside, if_pos inside,
        Int.add_zero, List.append_assoc _ chunk, List.take_left' here, List.drop_left' here]
      simp
    · have further : (d.locate pos + chunk.length).toNat = (d.locate pos).toNat + chunk.length := by
        omega
      have behind : (d.text.take (d.locate pos).toNat ++ chunk).length =
          (d.locate pos).toNat + chunk.length := by
        rw [List.length_append, here]
      rw [if_neg (fun h => inside ((inside_insert d pos pos chunk).mp h)), if_neg inside,
        if_neg inside, further, List.take_left' behind, List.drop_left' behind]
      simp

end YamlEdit.Draft
