import YamlEdit.Proofs.Load.Arises
import YamlEdit.Proofs.Load.Meaning
import YamlEdit.Proofs.Load.Part

/-!
# A part is built as a graph of its own

Of a part of a graph that is plain and without circles, and that nothing leads out of, the same is built
as if there were nothing else: whatever the rest is like and whenever it is built, the objects of the
part's nodes are read as what the nodes mean in the part.

What has been built is cut down to the part for this (`Builder.cut`). The objects of its nodes hold what
they would hold there (`fills_of_arises`), and so the references can be read as those of a graph that is
the part alone.
-/

namespace YamlEdit

theorem lookup_filter (keep : Nat → Bool) (l : List (Nat × Nat)) (i : Nat) :
    (l.filter fun e => keep e.1).lookup i = if keep i then l.lookup i else none := by
  induction l with
  | nil => simp
  | cons e r ih =>
    rw [List.filter_cons, List.lookup_cons]
    by_cases same : i = e.1
    · rw [← same, beq_self_eq_true]
      split
      · rw [List.lookup_cons, ← same, beq_self_eq_true]
      · next other => rw [ih, if_neg other]
    · rw [beq_false_of_ne same]
      split
      · rw [List.lookup_cons, beq_false_of_ne same, ih]
      · exact ih

namespace Construct

open YamlEdit.Graph

variable {h : Graph} {part : Nat → Bool} {rank : Nat → Nat} {b : Builder}

/-- A graph that replacing leads to shows in the part what the part alone is, but that some merge keys
may have been replaced. -/
theorem Replaced.shows (apart : Apart (h.mask part) part rank) {g : Graph} (reached : Replaced h g) :
    Shows (h.mask part) part g := by
  induction reached with
  | start => exact ⟨(size_mask h part).symm, fun _ => .inl rfl⟩
  | next _ mapping flat ih => exact (shows_flatten apart ih mapping flat).1

/-- What has been built of the nodes of a part, when nothing waits. -/
def Builder.cut (b : Builder) (part : Nat → Bool) (size : Nat) : Builder :=
  { b with
    graph := b.graph.mask part
    built := b.built.filter fun e => part e.1 && decide (e.1 < size)
    waiting := [] }

theorem lookup_cut (b : Builder) (part : Nat → Bool) (size i : Nat) :
    (b.cut part size).built.lookup i =
      if part i = true ∧ i < size then b.built.lookup i else none := by
  rw [Builder.cut, lookup_filter fun i => part i && decide (i < size)]
  simp only [Bool.and_eq_true, decide_eq_true_eq]

theorem of_lookup_cut {size i ref : Nat} (known : (b.cut part size).built.lookup i = some ref) :
    (part i = true ∧ i < size) ∧ b.built.lookup i = some ref := by
  rw [lookup_cut] at known
  split at known
  · next mine => exact ⟨mine, known⟩
  · cases known

section

variable (apart : Apart (h.mask part) part rank)
include apart

/-- A scalar of the part, which holds its own text. -/
theorem scalar_of_texted {g : Graph} (shows : Shows (h.mask part) part g) {i : Nat}
    (mine : part i = true) (inside : i < h.vertices.size) {v : Vertex}
    (here : (g.vertex? i).getD default = v) {s : Text} (text : Texted g v.body s) :
    (h.mask part).vertex? i = some ⟨v.tag, v.start, .scalar s⟩ := by
  obtain ⟨u, found⟩ : ∃ u, g.vertex? i = some u := by
    refine exists_vertex ?_
    rwa [shows.size, size_mask]
  rw [found, Option.getD_some] at here
  subst here
  obtain ⟨tag, start, body⟩ := u
  cases text with
  | scalar =>
    rw [← vertex?_mask_of mine] at found
    exact (shows.flat i).scalar found
  | @valued _ p listed value =>
    have sealed_ := shows.sealed_ apart
    have own : p ∈ g.pairs i := by
      rw [pairs_eq found]
      exact listed
    exact absurd value (sealed_.valueless _ (sealed_.closed.pairs mine own).1)

omit apart in
/-- The pairs of a list of pairs are the same in the part. -/
theorem single_of_shows {g : Graph} (shows : Shows (h.mask part) part g) {j : Nat}
    (mine : part j = true) (unmerged : ∀ p ∈ (h.mask part).pairs j, (h.mask part).merges p = false)
    {p : Nat × Nat} (single : g.Single j p) : (h.mask part).Single j p := by
  obtain ⟨tag, start, here⟩ := single
  rw [← vertex?_mask_of mine] at here
  obtain ⟨own, there, flat⟩ := (shows.flat j).mapping here
  rw [pairs_of_vertex? there] at unmerged
  rcases flat with rfl | flat
  · exact ⟨tag, start, there⟩
  · obtain rfl := flattens_unmerged there unmerged flat
    exact ⟨tag, start, there⟩

/-- The object of a node of the part holds what it would hold if the part were the graph. -/
theorem fills_of_arises {i : Nat} (mine : part i = true) (inside : i < h.vertices.size) {o : Object}
    (arises : Arises h b i o) : Fills (h.mask part) (b.cut part h.vertices.size) i o := by
  have size : (h.mask part).vertices.size = h.vertices.size := size_mask h part
  have keep {c ref : Nat} (place : part c = true ∧ c < h.vertices.size)
      (known : b.built.lookup c = some ref) :
      (b.cut part h.vertices.size).built.lookup c = some ref := by
    rw [lookup_cut, if_pos place, known]
  have keepPairs {all refs : List (Nat × Nat)} (flat : (h.mask part).Flattens i all)
      (parts : List.Forall₂ (Pairs b) all refs) :
      List.Forall₂ (Pairs (b.cut part h.vertices.size)) all refs := by
    refine forall₂_of_mem parts fun p hp q pair => ?_
    obtain ⟨key, value⟩ := apart.flattens flat hp
    obtain ⟨low, low'⟩ := (flat.origin apart.down hp).inside apart.down
    rw [size] at low low'
    exact ⟨keep ⟨key, low⟩ pair.1, keep ⟨value, low'⟩ pair.2⟩
  have mapped {g g' : Graph} {tag : Tag} {start : Option Mark} {pairs : List (Nat × Nat)}
      (reached : Replaced h g) (here : g.vertex? i = some ⟨tag, start, .mapping pairs⟩)
      (flat : flatten g i = .ok g') :
      (∃ own, (h.mask part).vertex? i = some ⟨tag, start, .mapping own⟩) ∧
        (h.mask part).Flattens i (g'.pairs i) := by
    have shows := reached.shows apart
    refine ⟨?_, (shows_flatten apart shows ⟨_, _, _, here⟩ flat).2 mine⟩
    rw [← vertex?_mask_of mine] at here
    obtain ⟨own, there, -⟩ := (shows.flat i).mapping here
    exact ⟨own, there⟩
  cases arises with
  | leaf reached here text reads =>
    exact .scalar (scalar_of_texted apart (reached.shows apart) mine inside here text) reads
  | list reached here parts =>
    rw [← vertex?_mask_of mine] at here
    have there := ((reached.shows apart).flat i).sequence here
    refine .list there (forall₂_of_mem parts fun c hc ref known => keep ⟨?_, ?_⟩ known)
    · exact apart.inner i _ there c hc
    · exact size ▸ apart.down.inside i _ there c hc
  | dict reached here flat parts leaves =>
    obtain ⟨⟨own, there⟩, flat⟩ := mapped reached here flat
    exact .dict there flat (keepPairs flat parts) leaves
  | set reached here flat parts leaves =>
    obtain ⟨⟨own, there⟩, flat⟩ := mapped reached here flat
    exact .set there flat (keepPairs flat parts) leaves
  | @tuples g tag start items refs all reached here paired singles parts =>
    have shows := reached.shows apart
    rw [← vertex?_mask_of mine] at here
    have there := (shows.flat i).sequence here
    have single : List.Forall₂ (h.mask part).Single items all :=
      forall₂_of_mem singles fun j hj p single => single_of_shows shows
        (apart.inner i _ there j hj) (apart.plain.singles i tag start items there paired j hj) single
    refine .tuples there paired single (forall₂_of_mem parts ?_)
    rintro p hp ref ⟨q, pair, tuple⟩
    obtain ⟨j, -, tag', start', alone⟩ := mem_of_forall₂ single hp
    obtain ⟨key, value⟩ := Vertex.mem_parts_mapping tag' start' (List.mem_singleton_self p)
    refine ⟨q, ⟨keep ⟨?_, ?_⟩ pair.1, keep ⟨?_, ?_⟩ pair.2⟩, tuple⟩
    · exact apart.inner j _ alone _ key
    · exact size ▸ apart.down.inside j _ alone _ key
    · exact apart.inner j _ alone _ value
    · exact size ▸ apart.down.inside j _ alone _ value

/-- When nothing waits any more the objects of the part's nodes are read as what the nodes mean in the
part. -/
theorem means_of_going {past : List Nat} (going : Going h past [] b) (empty : b.waiting = [])
    {i ref : Nat} (mine : part i = true) (inside : i < h.vertices.size)
    (known : b.built.lookup i = some ref) : (h.mask part).Means i (b.store.read ref).bare := by
  have size : (h.mask part).vertices.size = h.vertices.size := size_mask h part
  have sane : Sane (h.mask part) False [] [] (b.cut part h.vertices.size) := by
    have shows := going.reached.shows apart
    refine ⟨?_, shows.flat, ?_, ?_, ?_, nofun, nofun, .nil, nofun⟩
    · rw [size, ← going.reached.evolves.size]
      exact size_mask b.graph part
    · intro j ref known
      obtain ⟨place, known⟩ := of_lookup_cut known
      exact ⟨size.symm ▸ place.2, going.housed.inside j ref known⟩
    · intro j k ref known known'
      exact going.housed.apart j k ref (of_lookup_cut known).2 (of_lookup_cut known').2
    · intro j ref known _
      obtain ⟨⟨mine, inside⟩, known⟩ := of_lookup_cut known
      obtain ⟨o, here, arises⟩ := going.housed.filled j ref known (by rw [empty]; exact nofun)
      exact ⟨o, here, fills_of_arises apart mine inside arises⟩
  have known' : (b.cut part h.vertices.size).built.lookup i = some ref := by
    rw [lookup_cut, if_pos ⟨mine, inside⟩, known]
  obtain ⟨v, means, reads⟩ := read_spec apart.down apart.plain sane rfl known'
  have value := reads _ _ (.start _ rank _)
  rw [← value] at means
  exact means

end

end Construct

end YamlEdit
