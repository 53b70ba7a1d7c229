import YamlEdit.Proofs.Patch.Spares
import YamlEdit.Proofs.Tree.Lenient
import YamlEdit.Proofs.Tree.Readable

/-!
# Settling changes nothing that is right

Every alias and every mapping with merge keys is constructed on its own and compared with the value
at its place. As all constructions are about the one meaning that each node has, a text that yields
a value already is left as it is: the value that a part of it has to have equals what the part means.

For that the value of every pair has to be what the mapping has under its key. It is where the
mapping's own keys are apart, since its own pairs come behind those that merge keys bring.
-/

namespace YamlEdit

namespace Tree

/-! ## Mappings that keep their own pairs -/

/-- No mapping has two pairs of its own with one key. -/
def KeysApart (t : Tree) : Prop :=
  ∀ n ∈ t.nodes, (n.pairs.filter t.isOwnPair).Pairwise fun p q =>
    ∀ k ∈ t.node? p.1, ∀ l ∈ t.node? q.1, ∀ v w, t.construct k = .ok v → t.construct l = .ok w →
      v.same w = false

/-- A tree whose nodes can be constructed one by one, and whose mappings keep their own pairs. -/
structure Regular (t : Tree) (rank : Nat → Nat) : Prop extends t.Readable rank where
  plain : t.Plain
  apart : t.KeysApart

variable {t : Tree}

/-- A text without aliases inside of their anchors, whose mappings keep their own pairs. -/
theorem exists_regular (ordered : t.Ordered) (tagged : t.Tagged)
    (plain : t.Plain) (apart : t.KeysApart) : ∃ rank, t.Regular rank := by
  obtain ⟨rank, readable⟩ := exists_readable ordered tagged plain.usual
  exact ⟨rank, readable, plain, apart⟩

/-- A mapping has the value of each of its own pairs under the key of the pair. -/
theorem Regular.find?_own {rank : Nat → Nat} (r : t.Regular rank) {i : Nat} {n : Node}
    (here : t.node? i = some n) {all : List (Nat × Nat)} {entries : List (Value × Value)}
    (flat : t.graph.Flattens i all) (reads : List.Forall₂ t.graph.Reads all entries)
    (scalars : ∀ e ∈ entries, e.1.IsScalar ∧ e.1.isNan = false) {p : Nat × Nat}
    (hp : p ∈ n.pairs) (own : t.isOwnPair p = true) :
    ∃ k v, t.graph.Means (t.lead p.1) k ∧ t.graph.Means (t.lead p.2) v ∧ k.IsScalar ∧
      Value.find? (Value.gather entries) k = some v := by
  have apart := r.apart n (mem_of_node? here)
  obtain ⟨before, after, pairs⟩ := List.append_of_mem hp
  rw [pairs, List.filter_append, List.filter_cons_of_pos own] at apart
  have later := (List.pairwise_cons.mp (List.pairwise_append.mp apart).2.1).1
  exact r.find?_last here flat reads scalars pairs own
    fun q hq own' => later q (List.mem_filter.mpr ⟨hq, own'⟩)

end Tree

/-! ## Settling what is right -/

namespace Patch

variable {t : Tree} {rank : Nat → Nat} (r : t.Regular rank) (layout : Layout) {i : Nat} {n : Node}
  (here : t.node? i = some n) {s : Session}
include r here

/-- What means something is constructed. -/
theorem settledValue?_gives {w : Value} (means : t.graph.Means (t.lead i) w) :
    ∃ x, Gives (settledValue? ⟨t, layout⟩ n) s (some x) s ∧ x.bare = w := by
  obtain ⟨x, made, same⟩ := r.construct here means
  refine ⟨x, ?_, same⟩
  rw [settledValue?, show (Editing.mk t layout).tree.construct n = .ok x from made]
  exact gives_pure.mpr ⟨rfl, rfl⟩

/-- An alias that stands for the value at its place is left as it is. -/
theorem settleAlias_gives {name : Text} {target : Option (Nat × Tag)}
    (body : n.body = .aliasOf name target) {w v : Value} (means : t.graph.Means (t.lead i) w)
    (equal : Value.equal w v = true) (key : Option Node) :
    Gives (settleAlias ⟨t, layout⟩ n target v key) s ⟨⟩ s := by
  have known : target.isSome = true := by
    have link : n.link? = some (target.map (·.1)) := by
      rw [Node.link?, body]
    obtain ⟨j, led, -⟩ := r.ordered.sound.link i n here _ link
    cases target with
    | none => cases led
    | some _ => rfl
  obtain ⟨x, constructed, same⟩ := settledValue?_gives r layout here means
  have keeps : Value.equal x v = true := by
    rw [← Value.equal_bare, same, equal]
  rw [settleAlias, if_pos known]
  refine gives_bind.mpr ⟨some x, s, constructed,
    gives_bind.mpr ⟨true, s, gives_pure.mpr ⟨keeps, rfl⟩, ?_⟩⟩
  exact gives_pure.mpr ⟨rfl, rfl⟩

omit here

/-- The key of a pair is constructed if it is a scalar and no merge key. -/
theorem scalarKey_gives {p : Nat × Nat} {key : Node} (found : t.node? p.1 = some key)
    (usable : t.isOwnPair p = true → ∃ k, t.graph.Means (t.lead p.1) k) :
    ∃ k, Gives (scalarKey ⟨t, layout⟩ p.1) s k s ∧
      ∀ x ∈ k, t.isOwnPair p = true ∧ t.graph.Means (t.lead p.1) x.bare := by
  have node : (Editing.mk t layout).node p.1 = key := node_of_found found
  rw [scalarKey, node]
  dsimp only
  cases body : key.body with
  | scalar tag text quoting =>
    dsimp only
    split
    · exact ⟨none, gives_pure.mpr ⟨rfl, rfl⟩, nofun⟩
    · next other =>
      have own : t.isOwnPair p = true := by
        rw [Tree.isOwnPair, found, Option.bind_some, Node.tag?, body]
        simpa using other
      obtain ⟨k, means⟩ := usable own
      obtain ⟨x, made, rfl⟩ := r.construct found means
      refine ⟨some x, gives_bind.mpr ⟨x, s, gives_ofLoad.mpr ⟨made, rfl⟩,
        gives_pure.mpr ⟨rfl, rfl⟩⟩, ?_⟩
      rintro _ ⟨⟩
      exact ⟨own, means⟩
  | _ => exact ⟨none, gives_pure.mpr ⟨rfl, rfl⟩, nofun⟩

theorem ownKeys_gives (usable : ∀ p ∈ n.pairs, (∃ key, t.node? p.1 = some key) ∧
      (t.isOwnPair p = true → ∃ k, t.graph.Means (t.lead p.1) k)) :
    ∃ own, Gives (ownKeys ⟨t, layout⟩ n) s own s := by
  rw [ownKeys]
  generalize n.pairs = pairs at usable
  induction pairs with
  | nil => exact ⟨[], gives_pure.mpr ⟨rfl, rfl⟩⟩
  | cons p pairs ih =>
    obtain ⟨⟨key, found⟩, means⟩ := usable p List.mem_cons_self
    obtain ⟨k, first, -⟩ := scalarKey_gives r layout (s := s) found means
    obtain ⟨own, rest⟩ := ih fun q hq => usable q (List.mem_cons_of_mem p hq)
    rw [List.filterMapM_cons]
    cases k with
    | none => exact ⟨own, gives_bind.mpr ⟨none, s, first, rest⟩⟩
    | some k =>
      exact ⟨k :: own, gives_bind.mpr ⟨some k, s, first,
        gives_bind.mpr ⟨own, s, rest, gives_pure.mpr ⟨rfl, rfl⟩⟩⟩⟩

omit r

/-- No key is dropped that the new dictionary has. -/
theorem droppedKey?_none (own : List Value) {id : Option Nat} {xs ys : List (Value × Value)}
    (held : ∀ e ∈ xs, Value.hasKey ys e.1 = true) :
    droppedKey? own (.dict id ys) xs = .ok none := by
  induction xs with
  | nil => rfl
  | cons e xs ih =>
    obtain ⟨first, rest⟩ := List.forall_mem_cons.mp held
    rw [droppedKey?]
    split
    · exact ih rest
    · rw [Value.holds, first]
      exact ih rest

/-- No entry is stale that the dictionary has. -/
theorem staleEntries_gives (own : List Value) {id : Option Nat} {xs ys : List (Value × Value)}
    (held : ∀ e ∈ ys, ∃ w, Value.find? xs e.1 = some w ∧ Value.equal w e.2 = true) :
    Gives (staleEntries (.dict id xs) own ys) s [] s := by
  induction ys with
  | nil => exact gives_pure.mpr ⟨rfl, rfl⟩
  | cons e ys ih =>
    obtain ⟨⟨w, found, equal⟩, rest⟩ := List.forall_mem_cons.mp held
    rw [staleEntries]
    have fresh : ∀ next : Bool → Patch (List (Value × Value)), Gives (next false) s [] s →
        Gives (if own.any (Value.same e.1) = true then do
            let isStale ← pure false
            next isStale
          else do
            let held ← ofLookup ((Value.dict id xs).held? e.1)
            let isStale ← pure (!held.any fun w => Value.equal w e.2)
            next isStale) s [] s := by
      intro next goes_on
      split
      · exact gives_bind.mpr ⟨false, s, gives_pure.mpr ⟨rfl, rfl⟩, goes_on⟩
      · rw [Value.held?_dict, found]
        refine gives_bind.mpr ⟨some w, s, gives_ofLookup.mpr ⟨rfl, rfl⟩,
          gives_bind.mpr ⟨false, s, gives_pure.mpr ⟨?_, rfl⟩, goes_on⟩⟩
        rw [Option.any_some, equal]
        rfl
    exact fresh _ (gives_bind.mpr ⟨[], s, ih rest, gives_pure.mpr ⟨rfl, rfl⟩⟩)

include r

/-- For the merges of a mapping nothing has to be done if it means an equal dictionary. -/
theorem planMerges_gives (here : t.node? i = some n) (kind : n.kind = .mapping)
    (usable : ∀ p ∈ n.pairs, (∃ key, t.node? p.1 = some key) ∧
      (t.isOwnPair p = true → ∃ k, t.graph.Means (t.lead p.1) k))
    {xs ys : List (Value × Value)} {id : Option Nat} (distinct : Value.Distinct (xs.map (·.1)))
    (means : t.graph.Means (t.lead i) (.dict none xs))
    (equal : Value.equal (.dict none xs) (.dict id ys) = true) (key : Option Node) :
    Gives (planMerges ⟨t, layout⟩ n (.dict id ys) ys key) s (.override []) s := by
  rw [planMerges]
  split
  · exact gives_pure.mpr ⟨rfl, rfl⟩
  obtain ⟨x, settled, same⟩ := settledValue?_gives r layout here (s := s) means
  obtain ⟨own, owns⟩ := ownKeys_gives r layout (s := s) usable
  have equal' : Value.equal x (.dict id ys) = true := by
    rw [← Value.equal_bare, same, equal]
  obtain ⟨id', zs, rfl, bare⟩ : ∃ id' zs, x = .dict id' zs ∧ Value.bareEntries zs = xs := by
    cases x with
    | dict id' zs => exact ⟨id', zs, rfl, (Value.dict.inj same).2⟩
    | _ => cases same
  have distinct' := Value.distinct_of_bareEntries (bare ▸ distinct)
  have held : ∀ e ∈ ys, ∃ w, Value.find? zs e.1 = some w ∧ Value.equal w e.2 = true :=
    fun e he => Value.find?_of_equal distinct' equal' he
  have kept : Gives (dropsMergedKey ⟨t, layout⟩ n (.dict id' zs) (.dict id ys)) s false s := by
    unfold dropsMergedKey
    rw [kind]
    have none : droppedKey? own (.dict id ys) zs = .ok none :=
      droppedKey?_none own fun e he => Value.hasKey_of_equal equal' he
    exact gives_bind.mpr ⟨own, s, owns, gives_bind.mpr ⟨_, s, gives_ofLookup.mpr ⟨none, rfl⟩,
      gives_pure.mpr ⟨rfl, rfl⟩⟩⟩
  exact gives_bind.mpr ⟨_, s, settled, gives_bind.mpr ⟨own, s, owns, gives_bind.mpr ⟨_, s, kept,
    gives_bind.mpr ⟨_, s, staleEntries_gives own held, gives_pure.mpr ⟨rfl, rfl⟩⟩⟩⟩⟩

/-- The pairs of a mapping are left as they are if each own pair is. -/
theorem settlePairs_gives {settle : Node → Value → Option Node → Patch Unit}
    {ys : List (Value × Value)} {pairs : List (Nat × Nat)}
    (usable : ∀ p ∈ pairs, (∃ key, t.node? p.1 = some key) ∧
      (t.isOwnPair p = true → ∃ k, t.graph.Means (t.lead p.1) k))
    (each : ∀ p ∈ pairs, t.isOwnPair p = true → ∀ k : Value, t.graph.Means (t.lead p.1) k.bare →
      ∀ v, Value.find? ys k = some v → ∀ key,
        Gives (settle ((Editing.mk t layout).node p.2) v key) s ⟨⟩ s) :
    Gives (settlePairs ⟨t, layout⟩ settle ys pairs) s ⟨⟩ s := by
  induction pairs with
  | nil => exact gives_pure.mpr ⟨rfl, rfl⟩
  | cons p pairs ih =>
    obtain ⟨⟨key, found⟩, means⟩ := usable p List.mem_cons_self
    obtain ⟨k, first, known⟩ := scalarKey_gives r layout (s := s) found means
    have rest := ih (fun q hq => usable q (List.mem_cons_of_mem p hq))
      fun q hq => each q (List.mem_cons_of_mem p hq)
    rw [settlePairs]
    refine gives_bind.mpr ⟨k, s, first, ?_⟩
    cases k with
    | none => exact rest
    | some k =>
      obtain ⟨own, means⟩ := known k rfl
      cases held : Value.find? ys k with
      | none => simpa only [held] using rest
      | some v =>
        have settled := each p List.mem_cons_self own k means v held
        simp only [held]
        exact gives_bind.mpr ⟨⟨⟩, s, settled _, rest⟩

omit r

/-- The items of a sequence are left as they are if each is. -/
theorem settleItems_gives {settle : Node → Value → Option Node → Patch Unit} {items : List Nat}
    {ws vs : List Value} (means : List.Forall₂ t.graph.Means (items.map t.lead) ws)
    (equal : Value.equalItems ws vs = true)
    (each : ∀ c ∈ items, ∀ w v, t.graph.Means (t.lead c) w → Value.equal w v = true →
      Gives (settle ((Editing.mk t layout).node c) v none) s ⟨⟩ s) :
    Gives (settleItems ⟨t, layout⟩ settle items vs) s ⟨⟩ s := by
  induction items generalizing ws vs with
  | nil => exact gives_pure.mpr ⟨rfl, rfl⟩
  | cons c items ih =>
    cases vs with
    | nil => exact gives_pure.mpr ⟨rfl, rfl⟩
    | cons v vs =>
      rw [List.map_cons] at means
      cases means with
      | cons first rest =>
        rw [Value.equalItems, Bool.and_eq_true] at equal
        exact gives_bind.mpr ⟨⟨⟩, s, each c List.mem_cons_self _ v first equal.1,
          ih rest equal.2 fun d hd => each d (List.mem_cons_of_mem c hd)⟩

include r

/-- A mapping that means an equal dictionary is left as it is if the values of its pairs are. -/
theorem settleMapping_gives {i : Nat} {n : Node} (here : t.node? i = some n) {tag : Tag}
    {frame : Frame} {pairs : List (Nat × Nat)} (body : n.body = .mapping tag frame pairs)
    {settle : Node → Value → Option Node → Patch Unit}
    (inner : ∀ {c m w v}, t.node? c = some m → t.graph.Means (t.lead c) w →
      Value.equal w v = true → ∀ key, Gives (settle m v key) s ⟨⟩ s)
    {w : Value} (means : t.graph.Means (t.lead i) w) {id : Option Nat} {ys : List (Value × Value)}
    (equal : Value.equal w (.dict id ys) = true) (key : Option Node) :
    Gives (planMerges ⟨t, layout⟩ n (.dict id ys) ys key) s (.override []) s ∧
      Gives (settlePairs ⟨t, layout⟩ settle ys pairs) s ⟨⟩ s := by
  have own : n.isAlias = false := by
    rw [Node.isAlias, Node.kind, body]
    rfl
  have spelled : n.pairs = pairs := by
    rw [Node.pairs, body]
  have vertex := Tree.vertex?_graph here
  rw [body] at vertex
  have meaning := means
  rw [Tree.lead_of_not_alias r.ordered.sound here own] at meaning
  cases r.plain.of_mapping here body
  obtain ⟨all, entries, flat, reads, scalars, rfl⟩ := meaning.of_map vertex
  have distinct := Value.distinct_gather fun e he => (scalars e he).1
  have pair := fun p (hp : p ∈ pairs) (own : t.isOwnPair p = true) =>
    r.find?_own here flat reads scalars (spelled ▸ hp) own
  have usable : ∀ p ∈ pairs, (∃ key, t.node? p.1 = some key) ∧
      (t.isOwnPair p = true → ∃ k, t.graph.Means (t.lead p.1) k) := by
    intro p hp
    refine ⟨(r.exists_pair here (spelled ▸ hp)).1, fun own => ?_⟩
    obtain ⟨k, -, means, -⟩ := pair p hp own
    exact ⟨k, means⟩
  refine ⟨planMerges_gives r layout here (by rw [Node.kind, body]) (spelled ▸ usable) distinct means
    equal key, settlePairs_gives r layout usable ?_⟩
  intro p hp own k means v held key
  obtain ⟨k', w, means', value, scalar, found⟩ := pair p hp own
  obtain ⟨-, m, there⟩ := r.exists_pair here (spelled ▸ hp)
  cases Graph.Means.unique r.down means means'
  obtain ⟨e, he, same, rfl⟩ := Value.mem_of_find? found
  rw [show (Editing.mk t layout).node p.2 = m from node_of_found there]
  refine inner there value ?_ key
  exact Value.equal_of_find? distinct equal he (Value.isScalar_bare.mp scalar)
    (Value.same_bare k e.1 ▸ same) held

/-- A sequence that means an equal list is left as it is if its items are. -/
theorem settleSequence_gives {i : Nat} {n : Node} (here : t.node? i = some n) {tag : Tag}
    {frame : Frame} {items : List Nat} (body : n.body = .sequence tag frame items)
    {settle : Node → Value → Option Node → Patch Unit}
    (inner : ∀ {c m w v}, t.node? c = some m → t.graph.Means (t.lead c) w →
      Value.equal w v = true → ∀ key, Gives (settle m v key) s ⟨⟩ s)
    {w : Value} (means : t.graph.Means (t.lead i) w) {id : Option Nat} {vs : List Value}
    (equal : Value.equal w (.list id vs) = true) :
    Gives (settleItems ⟨t, layout⟩ settle items vs) s ⟨⟩ s := by
  have own : n.isAlias = false := by
    rw [Node.isAlias, Node.kind, body]
    rfl
  have vertex := Tree.vertex?_graph here
  rw [body] at vertex
  rw [Tree.lead_of_not_alias r.ordered.sound here own] at means
  cases r.plain.of_sequence here body
  obtain ⟨values, parts, rfl⟩ := means.of_seq vertex
  rw [Value.equal] at equal
  refine settleItems_gives layout parts equal ?_
  intro c hc w v means equal
  obtain ⟨m, found⟩ := r.exists_child here (by rwa [Node.children, body])
  rw [show (Editing.mk t layout).node c = m from node_of_found found]
  exact inner found means equal none

/-- A node that means what it is to be is left as it is. -/
theorem settleAt_gives (depth : Nat) {i : Nat} {n : Node} (here : t.node? i = some n) {w v : Value}
    (means : t.graph.Means (t.lead i) w) (equal : Value.equal w v = true) (key : Option Node) :
    Gives (settleAt ⟨t, layout⟩ depth n v key) s ⟨⟩ s := by
  induction depth generalizing i n w v key with
  | zero => exact gives_pure.mpr ⟨rfl, rfl⟩
  | succ depth ih =>
    unfold settleAt
    split
    · next body => exact settleAlias_gives r layout here body means equal key
    · next body =>
      obtain ⟨planned, settled⟩ := settleMapping_gives r layout here body
        (fun there means equal key => ih there means equal key) means equal key
      exact gives_bind.mpr ⟨_, s, planned,
        gives_bind.mpr ⟨⟨⟩, s, settled, gives_pure.mpr ⟨rfl, rfl⟩⟩⟩
    · next body =>
      exact settleSequence_gives r layout here body
        (fun there means equal key => ih there means equal key) means equal
    · exact gives_pure.mpr ⟨rfl, rfl⟩

omit r

/-- A round changes nothing in a text whose value equals the one that it is to have. -/
theorem settleRound_gives (ordered : t.nodes.size = 0 ∨ t.Ordered) (tagged : t.Ordered → t.Tagged)
    (plain : t.Plain) (apart : t.KeysApart) {u v : Value} (value : t.value = .ok u) (equal : Value.equal u v = true) :
    Gives (settleRound ⟨t, layout⟩ v) s ⟨⟩ s := by
  rw [settleRound]
  cases root : t.root? with
  | none => exact gives_pure.mpr ⟨rfl, rfl⟩
  | some n =>
    have inside := (Array.getElem?_eq_some_iff.mp root).1
    have ordered := ordered.resolve_left (by omega)
    obtain ⟨rank, r⟩ := Tree.exists_regular ordered (tagged ordered) plain apart
    rw [Tree.value, root] at value
    exact settleAt_gives r layout _ root (r.means root value) (by rwa [Value.equal_bare]) none

end Patch

/-! ## Settling a text -/

open Patch

/-- Settling leaves a plain text as it is whose mappings keep their own pairs and whose value equals
the one that it is to have. -/
theorem settleAliases_unchanged {s : Text} {t : Tree} {u v : Value}
    (composed : Tree.compose s = .ok t) (loads : loadValue s = .ok u) (plain : t.Plain)
    (apart : t.KeysApart) (equal : Value.equal u v = true) (layout : Layout)
    (notices : List Notice) : Gives (settleAliases s v layout) notices s notices := by
  have text := Tree.text_of_compose composed
  obtain ⟨u', value, rfl⟩ := (Tree.agree_loadValue composed).ok loads
  have settled := settleRound_gives layout (s := { draft := .ofText t.text, notices })
    (Tree.ordered_of_compose composed) (Tree.tagged_of_compose composed) plain apart value equal
  have patched : Gives (Noted.patch ⟨t, layout⟩ (settleRound ⟨t, layout⟩ v)) notices
      (.ofText t.text) notices := Noted.gives_patch.mpr ⟨_, settled, rfl, rfl⟩
  rw [settleAliases, settleRounds, Tree.compose_lenient composed]
  refine gives_bind.mpr ⟨_, notices, patched, ?_⟩
  rw [show (Draft.ofText t.text).text = s from text, if_pos rfl]
  exact gives_pure.mpr ⟨rfl, rfl⟩

/-! ## Plain texts that can be checked -/

namespace Tree

/-- Whether a node is one of a plain tree. -/
def isPlainAt (t : Tree) (n : Node) : Bool :=
  match n.kind with
  | .scalar => n.tag? != some .value
  | .sequence => n.tag? == some .seq
  | .mapping => n.tag? == some .map
  | .aliasNode => (t.target? n).all fun m => t.nodes.contains m && t.endsBefore m n

/-- Whether the keys of a node are numbers, and apart where they are its own. -/
def keepsKeys (t : Tree) (n : Node) : Bool :=
  let key (p : Nat × Nat) : Option Value := (t.node? p.1).bind fun k => (t.construct k).toOption
  (n.pairs.all fun p => (key p).all fun v => !v.isNan) &&
    decide ((n.pairs.filter t.isOwnPair).Pairwise fun p q =>
      (key p).all (fun v => (key q).all fun w => !v.same w) = true)

theorem plain_of_check {t : Tree} (sound : Sound t.nodes)
    (check : (t.nodes.all fun n => t.isPlainAt n && t.keepsKeys n) = true) :
    t.Plain ∧ t.KeysApart := by
  have each : ∀ n ∈ t.nodes, t.isPlainAt n = true ∧ t.keepsKeys n = true :=
    fun n hn => Bool.and_eq_true_iff.mp (Array.all_eq_true_iff_forall_mem.mp check n hn)
  have key : ∀ (p : Nat × Nat) k v, t.node? p.1 = some k → t.construct k = .ok v →
      ((t.node? p.1).bind fun k => (t.construct k).toOption) = some v := by
    intro p k v found made
    rw [found, Option.bind_some, made]
    rfl
  refine ⟨⟨?_, ?_, ?_, ?_, ?_⟩, ?_⟩
  · intro n hn kind
    have plain := (each n hn).1
    rw [isPlainAt, kind] at plain
    simpa using plain
  · intro n hn kind
    have plain := (each n hn).1
    rw [isPlainAt, kind] at plain
    simpa using plain
  · intro n hn kind
    have plain := (each n hn).1
    rw [isPlainAt, kind] at plain
    simpa using plain
  · intro a ha alias_ m target
    have plain := (each a ha).1
    rw [isPlainAt, show a.kind = .aliasNode by simpa [Node.isAlias] using alias_] at plain
    dsimp only at plain
    rw [show t.target? a = some m from target, Option.all_some, Bool.and_eq_true] at plain
    exact not_inside_of_endsBefore sound (by simpa using plain.1) plain.2
  · intro n hn p hp k found v made
    have keeps := (Bool.and_eq_true_iff.mp (each n hn).2).1
    have number := List.all_eq_true.mp keeps p hp
    dsimp only at number
    rw [key p k v found made, Option.all_some] at number
    simpa using number
  · intro n hn
    have keeps := (Bool.and_eq_true_iff.mp (each n hn).2).2
    refine (of_decide_eq_true keeps).imp ?_
    intro p q apart k found l found' v w made made'
    dsimp only at apart
    rw [key p k v found made, key q l w found' made', Option.all_some, Option.all_some] at apart
    simpa using apart

end Tree

/-- A mapping that is shared, merged and overridden, and a key that is an alias. -/
def merged : Text :=
  "base: &b {k: 1, l: [&x y]}\nd:\n  <<: *b\n  k: 2\n  deep: [*b, *x]\n*x : *b\n".toList

/-- The value of `merged`, with its keys in another order and nothing shared. -/
def mergedValue : Value :=
  let text (s : String) : Value := .str s.toList
  let base : Value := .dict none [(text "l", .list none [text "y"]), (text "k", .int 1)]
  .dict none [(text "y", base), (text "d", .dict none [(text "deep", .list none [base, text "y"]),
    (text "k", .int 2), (text "l", .list none [text "y"])]), (text "base", base)]

theorem settleAliases_unchanged_merged : ∃ t u, Tree.compose merged = .ok t ∧
    loadValue merged = .ok u ∧ t.hasAlias = true ∧ t.Plain ∧ t.KeysApart ∧
    Value.equal u mergedValue = true ∧ ∀ layout notices,
      Gives (settleAliases merged mergedValue layout) notices merged notices := by
  obtain ⟨t, u, composed, loads, check⟩ := Tree.exists_loaded
    (show (Tree.compose merged).toOption.any (fun t => t.value.toOption.any fun u =>
      Value.equal u mergedValue && (t.hasAlias &&
        t.nodes.all fun n => t.isPlainAt n && t.keepsKeys n)) = true by decide +kernel)
  obtain ⟨equal, check⟩ := Bool.and_eq_true_iff.mp check
  obtain ⟨aliased, check⟩ := Bool.and_eq_true_iff.mp check
  obtain ⟨plain, apart⟩ := Tree.plain_of_check (Tree.sound_of_compose composed) check
  exact ⟨t, u, composed, loads, aliased, plain, apart, equal,
    settleAliases_unchanged composed loads plain apart equal⟩

end YamlEdit
