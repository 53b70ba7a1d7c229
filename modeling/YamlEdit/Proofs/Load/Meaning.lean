import YamlEdit.Proofs.Load.Build

/-!
# A graph loads as what it means

When no object waits any more, every reference can be read, by the rank of the node that it is for:
on the way down to a scalar no container is met twice, so the reading neither stops nor runs back. The
pairs of a list of pairs are no node's objects; they stand between the list and what they hold.
-/

namespace YamlEdit

namespace Construct

open YamlEdit.Graph

variable {g₀ : Graph} {rank : Nat → Nat} {H : Prop} {b : Builder} {past : List Nat}

theorem forall₂_choose {α β γ : Type} {R : α → β → Prop} {S : α → γ → Prop} {T : β → γ → Prop}
    {l : List α} {m : List β} (h : List.Forall₂ R l m)
    (each : ∀ a ∈ l, ∀ b, R a b → ∃ c, S a c ∧ T b c) :
    ∃ values, List.Forall₂ S l values ∧ List.Forall₂ T m values := by
  induction h with
  | nil => exact ⟨[], .nil, .nil⟩
  | cons first _ ih =>
    obtain ⟨c, left, right⟩ := each _ List.mem_cons_self _ first
    obtain ⟨values, lefts, rights⟩ := ih fun a ha => each a (List.mem_cons_of_mem _ ha)
    exact ⟨c :: values, .cons left lefts, .cons right rights⟩

theorem map_eq_of_forall₂ {α β : Type} {f : α → β} {l : List α} {m : List β}
    (h : List.Forall₂ (fun a b => f a = b) l m) : l.map f = m := by
  induction h with
  | nil => rfl
  | cons first _ ih => rw [List.map_cons, first, ih]

/-- A container that has been met on the way to nodes below a rank: the object of a node, or a pair
of objects of which one leads there. -/
def Met (b : Builder) (rank : Nat → Nat) (bound a : Nat) : Prop :=
  (∃ j, b.built.lookup j = some a ∧ bound ≤ rank j) ∨
    ∃ p, Tupled b p a ∧ (bound ≤ rank p.1 + 1 ∨ bound ≤ rank p.2 + 1)

/-- An unfolding that has come from nodes of a rank on, and can go on. -/
structure Room (b : Builder) (rank : Nat → Nat) (bound depth : Nat) (above : List Nat) : Prop where
  met : ∀ a ∈ above, Met b rank bound a
  nodup : above.Nodup
  depth : depth + above.length = b.store.objects.size + 1

/-- A value that a reference is read as, from wherever above a rank. -/
def ReadAs (b : Builder) (rank : Nat → Nat) (bound ref : Nat) (v : Value) : Prop :=
  ∀ depth above, Room b rank bound depth above → (b.store.unfold depth above ref).bare = v

theorem Met.mono {bound less a : Nat} (h : Met b rank bound a) (le : less ≤ bound) :
    Met b rank less a := by
  rcases h with ⟨j, known, low⟩ | ⟨p, tupled, low⟩
  · exact .inl ⟨j, known, Nat.le_trans le low⟩
  · exact .inr ⟨p, tupled, low.imp (Nat.le_trans le) (Nat.le_trans le)⟩

theorem Room.mono {bound less depth : Nat} {above : List Nat} (h : Room b rank bound depth above)
    (le : less ≤ bound) : Room b rank less depth above :=
  ⟨fun a ha => (h.met a ha).mono le, h.nodup, h.depth⟩

theorem Room.start (b : Builder) (rank : Nat → Nat) (bound : Nat) :
    Room b rank bound (b.store.objects.size + 1) [] :=
  ⟨nofun, .nil, rfl⟩

section

variable (sane : Sane g₀ H past [] b)
include sane

/-- The object of a node is no pair of objects. -/
theorem not_tupled_of_known (empty : b.waiting = []) {i ref : Nat}
    (known : b.built.lookup i = some ref) {p : Nat × Nat} : ¬ Tupled b p ref := by
  rintro ⟨q, -, tuple⟩
  obtain ⟨o, here, fills⟩ := sane.filled i ref known (by rw [empty]; exact nofun)
  cases here.symm.trans tuple
  cases fills

theorem Met.lt_size {bound a : Nat} (h : Met b rank bound a) : a < b.store.objects.size := by
  rcases h with ⟨j, known, -⟩ | ⟨p, ⟨q, -, tuple⟩, -⟩
  · exact (sane.inside j a known).2
  · exact (Array.getElem?_eq_some_iff.mp tuple).1

/-- There is room for a container that has not been met. -/
theorem Room.push {bound depth ref : Nat} {above : List Nat} (h : Room b rank bound depth above)
    (fresh : ref ∉ above) {less : Nat} (le : less ≤ bound) (met : Met b rank less ref) :
    ∃ d, depth = d + 1 ∧ Room b rank less d (ref :: above) := by
  have short : above.length ≤ b.store.objects.size :=
    length_le_of_lt h.nodup fun a ha => (h.met a ha).lt_size sane
  have depth_ := h.depth
  refine ⟨depth - 1, by omega, ?_, List.nodup_cons.mpr ⟨fresh, h.nodup⟩, ?_⟩
  · intro a ha
    rcases List.mem_cons.mp ha with rfl | before
    · exact met
    · exact (h.met a before).mono le
  · rw [List.length_cons]
    omega

/-- There is room for one more node, and below it for nodes of lower rank. -/
theorem Room.next (empty : b.waiting = []) {i ref : Nat} (known : b.built.lookup i = some ref)
    {depth : Nat} {above : List Nat} (h : Room b rank (rank i + 1) depth above) :
    ref ∉ above ∧ ∃ d, depth = d + 1 ∧ Room b rank (rank i) d (ref :: above) := by
  have fresh : ref ∉ above := by
    intro again
    rcases h.met ref again with ⟨j, known', low⟩ | ⟨p, tupled, -⟩
    · rw [sane.apart i j ref known known'] at low
      omega
    · exact not_tupled_of_known sane empty known tupled
  exact ⟨fresh, h.push sane fresh (Nat.le_succ _) (.inl ⟨i, known, Nat.le_refl _⟩)⟩

/-- There is room for a pair whose parts have lower rank, and below it for the parts. -/
theorem Room.next_tuple (empty : b.waiting = []) {p : Nat × Nat} {ref bound : Nat}
    (tupled : Tupled b p ref) (low : rank p.1 + 1 < bound ∧ rank p.2 + 1 < bound) {depth : Nat}
    {above : List Nat} (h : Room b rank bound depth above) :
    ref ∉ above ∧ ∃ d, depth = d + 1 ∧ Room b rank (rank p.1 + 1) d (ref :: above) ∧
      Room b rank (rank p.2 + 1) d (ref :: above) := by
  have fresh : ref ∉ above := by
    intro again
    rcases h.met ref again with ⟨j, known, -⟩ | ⟨p', ⟨q', pair', tuple'⟩, low'⟩
    · exact not_tupled_of_known sane empty known tupled
    · obtain ⟨q, pair, tuple⟩ := tupled
      have parts := tuple'.symm.trans tuple
      simp only [Option.some.injEq, Object.tuple.injEq, List.cons.injEq, and_true] at parts
      have key := sane.apart _ _ _ pair'.1 (parts.1 ▸ pair.1)
      have value := sane.apart _ _ _ pair'.2 (parts.2 ▸ pair.2)
      rw [key, value] at low'
      omega
  have left : Met b rank (rank p.1 + 1) ref := .inr ⟨p, tupled, .inl (Nat.le_refl _)⟩
  have right : Met b rank (rank p.2 + 1) ref := .inr ⟨p, tupled, .inr (Nat.le_refl _)⟩
  obtain ⟨d, rfl, first⟩ := h.push sane fresh (Nat.le_of_lt low.1) left
  obtain ⟨d', same, second⟩ := h.push sane fresh (Nat.le_of_lt low.2) right
  cases same
  exact ⟨fresh, d, rfl, first, second⟩

end

section

variable {s : Store} {ref depth : Nat} {above : List Nat} (fresh : ref ∉ above)
include fresh

theorem unfold_leaf {v : Value} (here : s.objects[ref]? = some (.leaf v)) :
    s.unfold (depth + 1) above ref = v.identified ref := by
  rw [Store.unfold, if_neg (by simpa using fresh), here]

theorem unfold_list {items : List Nat} (here : s.objects[ref]? = some (.list items)) :
    s.unfold (depth + 1) above ref =
      .list (some ref) (items.map (s.unfold depth (ref :: above))) := by
  rw [Store.unfold, if_neg (by simpa using fresh), here]

theorem unfold_dict {entries : List (Nat × Nat)} (here : s.objects[ref]? = some (.dict entries)) :
    s.unfold (depth + 1) above ref = .dict (some ref)
      (entries.map fun e => (s.unfold depth (ref :: above) e.1, s.unfold depth (ref :: above) e.2)) := by
  rw [Store.unfold, if_neg (by simpa using fresh), here]

theorem unfold_set {members : List Nat} (here : s.objects[ref]? = some (.set members)) :
    s.unfold (depth + 1) above ref =
      .set (some ref) (members.map (s.unfold depth (ref :: above))) := by
  rw [Store.unfold, if_neg (by simpa using fresh), here]

theorem unfold_tuple {items : List Nat} (here : s.objects[ref]? = some (.tuple items)) :
    s.unfold (depth + 1) above ref =
      .tuple (some ref) (items.map (s.unfold depth (ref :: above))) := by
  rw [Store.unfold, if_neg (by simpa using fresh), here]

end

/-- The object of a key is read as the scalar that the key is. -/
theorem readAs_key (plain : g₀.Plain) (down : g₀.Descends rank) (sane : Sane g₀ H past [] b)
    (empty : b.waiting = []) {i k key : Nat} {p : Nat × Nat} (origin : Origin g₀ rank i p)
    (same : k = p.1) (known : b.built.lookup k = some key) (leaf : b.store.HasLeaf key) {v : Value}
    (means : g₀.Means k v) : v.IsScalar ∧ v.isNan = false := by
  obtain ⟨o, here, fills⟩ := sane.filled k key known (by rw [empty]; exact nofun)
  obtain ⟨w, leaf⟩ := leaf
  cases here.symm.trans leaf
  cases fills with
  | scalar there reads =>
    cases (Means.scalar there reads).unique down means
    obtain ⟨j, tag, start, pairs, -, owner, listed⟩ := origin.listed
    subst same
    refine ⟨Value.isScalar_bare.mpr (isScalar_of_scalarValue? reads), ?_⟩
    rw [Value.isNan_bare]
    exact plain.keys j tag start pairs owner p listed _ _ _ _ there reads

/-- Where references are read as keys and values, the entries that are gathered from the references
are read as those gathered from what they are read as: references are one key exactly if what they are
read as is. -/
theorem map_bare_gather {s : Store} {read : Nat → Value} {refs : List (Nat × Nat)}
    {entries : List (Value × Value)} (scalars : ∀ e ∈ entries, e.1.IsScalar ∧ e.1.isNan = false)
    (reads : List.Forall₂ (fun q (e : Value × Value) =>
      ((s.read q.1).bare = e.1 ∧ (read q.1).bare = e.1) ∧ (read q.2).bare = e.2) refs entries) :
    ((s.gather refs).map fun e => ((read e.1).bare, (read e.2).bare)) = Value.gather entries := by
  let value : Nat → Value := fun r => (read r).bare
  have same : ∀ q ∈ refs, ∀ q' ∈ refs, s.sameKey q.1 q'.1 = (value q.1).same (value q'.1) := by
    intro q hq q' hq'
    obtain ⟨e, he, ⟨read, val⟩, -⟩ := mem_of_forall₂ reads.flip hq
    obtain ⟨e', he', ⟨read', val'⟩, -⟩ := mem_of_forall₂ reads.flip hq'
    have compared : (s.read q.1).same (s.read q'.1) = e.1.same e'.1 := by
      rw [← Value.same_bare, read, Value.same_comm (scalars e he).1, ← Value.same_bare, read',
        Value.same_comm (scalars e' he').1]
    rw [Store.sameKey, compared, show value q.1 = e.1 from val, show value q'.1 = e'.1 from val']
    by_cases equal : q.1 = q'.1
    · have one : e'.1 = e.1 := by
        rw [← val, ← val', equal]
      rw [one, Value.same_self (scalars e he).1 (scalars e he).2, Bool.or_true]
    · rw [beq_false_of_ne equal, Bool.false_or]
  have filled : refs.map (Prod.map value value) = entries :=
    map_eq_of_forall₂ (reads.imp fun _ _ reads => Prod.ext reads.1.2 reads.2)
  rw [← filled, ← Store.map_gather same]
  rfl

/-- Every object that has been built is read as what its node means. -/
theorem read_spec (down : g₀.Descends rank) (plain : g₀.Plain) (sane : Sane g₀ H past [] b)
    (empty : b.waiting = []) {i ref : Nat} (known : b.built.lookup i = some ref) :
    ∃ v, g₀.Means i v ∧ ReadAs b rank (rank i + 1) ref v := by
  induction bound : rank i using Nat.strongRecOn generalizing i ref with
  | ind r ih =>
    subst bound
    -- what is known of the pairs that fill a dictionary or a set
    have dictionary : ∀ {all refs : List (Nat × Nat)}, g₀.Flattens i all →
        List.Forall₂ (Pairs b) all refs → (∀ q ∈ refs, b.store.HasLeaf q.1) →
        ∃ entries, List.Forall₂ g₀.Reads all entries ∧
          (∀ e ∈ entries, e.1.IsScalar ∧ e.1.isNan = false) ∧
          ∀ depth above, Room b rank (rank i) depth above →
            ((b.store.gather refs).map fun e => ((b.store.unfold depth above e.1).bare,
              (b.store.unfold depth above e.2).bare)) = Value.gather entries := by
      intro all refs flat parts leaves
      obtain ⟨entries, means, reads⟩ := forall₂_choose
        (S := fun p (e : Value × Value) => g₀.Reads p e ∧ e.1.IsScalar ∧ e.1.isNan = false)
        (T := fun q (e : Value × Value) => ReadAs b rank (rank i) q.1 e.1 ∧ ReadAs b rank (rank i) q.2 e.2)
        ((List.forall₂_and_left _ _).mpr ⟨leaves, parts.flip⟩).flip <| by
        rintro p hp q ⟨leaf, key, value⟩
        have origin := flat.origin down hp
        obtain ⟨low, low'⟩ := origin.lower down
        obtain ⟨v, means, reads⟩ := ih _ low key rfl
        obtain ⟨w, means', reads'⟩ := ih _ low' value rfl
        refine ⟨(v, w), ⟨⟨means, means'⟩, readAs_key plain down sane empty origin rfl key leaf means⟩,
          ?_, ?_⟩
        · exact fun depth above room => reads depth above (room.mono low)
        · exact fun depth above room => reads' depth above (room.mono low')
      have scalars : ∀ e ∈ entries, e.1.IsScalar ∧ e.1.isNan = false := by
        intro e he
        obtain ⟨p, -, -, scalar⟩ := mem_of_forall₂ means he
        exact scalar
      refine ⟨entries, means.imp fun _ _ m => m.1, scalars, ?_⟩
      intro depth above room
      exact map_bare_gather scalars <| reads.imp fun q e reads =>
        ⟨⟨reads.1 _ _ (.start b rank _), reads.1 depth _ room⟩, reads.2 depth _ room⟩
    obtain ⟨o, here, fills⟩ := sane.filled i ref known (by rw [empty]; exact nofun)
    cases fills with
    | @scalar _ _ _ v there reads =>
      refine ⟨v.bare, .scalar there reads, ?_⟩
      intro depth above room
      obtain ⟨fresh, d, rfl, -⟩ := room.next sane empty known
      rw [unfold_leaf fresh here, Value.bare_identified]
    | @list _ items refs there parts =>
      obtain ⟨values, means, reads⟩ := forall₂_choose (S := g₀.Means) (T := ReadAs b rank (rank i))
        parts <| by
        intro c hc ref known
        have low := down.lower i _ there c hc
        obtain ⟨v, means, reads⟩ := ih _ low known rfl
        exact ⟨v, means, fun depth above room => reads depth above (room.mono low)⟩
      refine ⟨.list none values, .list there means, ?_⟩
      intro depth above room
      obtain ⟨fresh, d, rfl, room'⟩ := room.next sane empty known
      rw [unfold_list fresh here, Value.bare_list, List.map_map]
      refine congrArg (Value.list none) (map_eq_of_forall₂ (reads.imp ?_))
      exact fun _ _ reads => reads d _ room'
    | @dict _ pairs all refs there flat parts leaves =>
      obtain ⟨entries, means, scalars, reads⟩ := dictionary flat parts leaves
      obtain ⟨keys, values⟩ := reads_iff.mp means
      refine ⟨.dict none (Value.gather entries), .dict there flat keys values scalars, ?_⟩
      intro depth above room
      obtain ⟨fresh, d, rfl, room'⟩ := room.next sane empty known
      rw [unfold_dict fresh here, Value.bare_dict, List.map_map, ← reads d _ room']
      rfl
    | @set _ pairs all refs there flat parts leaves =>
      obtain ⟨entries, means, scalars, reads⟩ := dictionary flat parts leaves
      obtain ⟨keys, values⟩ := reads_iff.mp means
      refine ⟨.set none ((Value.gather entries).map (·.1)), .set there flat keys values scalars, ?_⟩
      intro depth above room
      obtain ⟨fresh, d, rfl, room'⟩ := room.next sane empty known
      rw [unfold_set fresh here, Value.bare_set, List.map_map, List.map_map, ← reads d _ room',
        List.map_map]
      rfl
    | @tuples _ _ items refs all there paired singles parts =>
      obtain ⟨entries, means, reads⟩ := forall₂_choose (S := g₀.Reads)
        (T := fun ref (e : Value × Value) => ReadAs b rank (rank i) ref (.tuple none [e.1, e.2]))
        parts <| by
        rintro p hp ref ⟨q, pair, tuple⟩
        obtain ⟨c, hc, single⟩ := mem_of_forall₂ singles hp
        have low := down.lower i _ there c hc
        obtain ⟨less, less'⟩ := single.lower down
        obtain ⟨v, means, reads⟩ := ih _ (Nat.lt_trans less low) pair.1 rfl
        obtain ⟨w, means', reads'⟩ := ih _ (Nat.lt_trans less' low) pair.2 rfl
        refine ⟨(v, w), ⟨means, means'⟩, ?_⟩
        intro depth above room
        obtain ⟨fresh, d, rfl, first, second⟩ := room.next_tuple sane empty ⟨q, pair, tuple⟩
          ⟨by omega, by omega⟩
        rw [unfold_tuple fresh tuple, Value.bare_tuple]
        simp only [List.map_cons, List.map_nil, reads d _ first, reads' d _ second]
      obtain ⟨keys, values⟩ := reads_iff.mp means
      refine ⟨_, .tuples there paired singles keys values, ?_⟩
      intro depth above room
      obtain ⟨fresh, d, rfl, room'⟩ := room.next sane empty known
      rw [unfold_list fresh here, Value.bare_list, List.map_map]
      refine congrArg (Value.list none) (map_eq_of_forall₂ ?_)
      rw [List.forall₂_map_right_iff]
      exact reads.imp fun _ _ reads => reads d _ room'

/-- Building a plain graph without circles: it comes to an end exactly if the first node means
something, and gives what that means. -/
theorem run_spec (down : g₀.Descends rank) (plain : g₀.Plain) (inside : g₀.root < g₀.vertices.size) :
    OkWhen (∃ v, g₀.Means g₀.root v) (fun d => g₀.Means g₀.root d.value.bare) (run g₀) := by
  have start : Sane g₀ (∃ v, g₀.Means g₀.root v) [] [] { graph := g₀ } :=
    ⟨rfl, fun _ => .inl rfl, nofun, nofun, nofun, nofun, nofun, .nil, nofun⟩
  have build : OkWhen (∃ v, g₀.Means g₀.root v)
      (fun r => g₀.Means g₀.root (r.2.store.read r.1).bare)
      ((do let ref ← object g₀.root; fill (g₀.vertices.size + 1); return ref : Build Nat).run
        { graph := g₀ }) := by
    rw [StateT.run_bind]
    refine (object_spec plain start inside id).bind id ?_
    rintro ⟨ref, b⟩ made
    rw [StateT.run_bind]
    refine (fill_spec down plain made.sane (by simp)).bind id ?_
    rintro ⟨⟨⟩, b'⟩ ⟨⟨past, sane⟩, empty, kept⟩
    obtain ⟨v, means, reads⟩ := read_spec down plain sane empty (kept _ ref made.known)
    have value := reads _ _ (.start b' rank _)
    show g₀.Means g₀.root (b'.store.unfold (b'.store.objects.size + 1) [] ref).bare
    rw [value]
    exact means
  rw [run]
  refine build.bind id ?_
  rintro ⟨ref, b⟩ means
  exact means

end Construct

end YamlEdit
