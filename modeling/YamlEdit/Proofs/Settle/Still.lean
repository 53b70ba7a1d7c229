import YamlEdit.Proofs.Settle.Unchanged

/-!
# What a still text says

Settling goes round by round until a round leaves the text as it is. A round that splices nothing
has looked at every alias on its way and kept it: it stands for a node, and for the value at its
place if it can be constructed. An alias that cannot be is kept without a look, and a mapping that
merges others is passed by where it cannot be; so an alias without a node inside of such a one may
stay, however often the text is settled.
-/

namespace YamlEdit

/-- How many splices a session has made. -/
def Session.splices (s : Session) : Nat :=
  s.draft.edits.length

namespace Patch

/-! ## Runs that splice -/

/-- Splices are never taken back. -/
def NoFewer (s t : Session) : Prop :=
  s.splices ≤ t.splices

theorem tolerant_noFewer : Tolerant NoFewer Anywhere AnyLetter where
  refl _ := Nat.le_refl _
  trans _ _ _ := Nat.le_trans
  note _ _ _ := Nat.le_refl _
  splice s start stop fragment _ _ := by
    show s.draft.edits.length ≤ (s.draft.splice start stop fragment).edits.length
    rw [Draft.edits_splice, List.length_append]
    exact Nat.le_add_right ..

/-- A run that gives an answer and splices nothing. -/
def Still {α : Type} (x : Patch α) (a : α) : Prop :=
  ∃ s t : Session, Gives x s a t ∧ t.splices = s.splices

namespace Still

variable {α β : Type}

/-- The steps of a still run are still. -/
theorem bind {x : Patch α} {f : α → Patch β} {b : β} (h : Still (x >>= f) b)
    (first : Follows NoFewer x) (next : ∀ a, Follows NoFewer (f a)) :
    ∃ a, Still x a ∧ Still (f a) b := by
  obtain ⟨s, t, ran, still⟩ := h
  obtain ⟨a, u, before, after⟩ := gives_bind.mp ran
  have up : s.splices ≤ u.splices := first.gives before
  have up' : u.splices ≤ t.splices := (next a).gives after
  exact ⟨a, ⟨s, u, before, by omega⟩, u, t, after, by omega⟩

theorem pure {a b : α} (h : Still (Pure.pure a) b) : a = b := by
  obtain ⟨_, _, ran, -⟩ := h
  exact (gives_pure.mp ran).1

end Still

/-- Every run that answers splices. -/
def Splicing {α : Type} (x : Patch α) : Prop :=
  ∀ s a t, Gives x s a t → s.splices < t.splices

namespace Splicing

variable {α β : Type} {ed : Editing}

theorem splice (start stop : Int) (fragment : Text) : Splicing (Patch.splice start stop fragment) := by
  intro s a t h
  rw [← gives_splice.mp h]
  show s.draft.edits.length < (s.draft.splice start stop fragment).edits.length
  rw [Draft.edits_splice, List.length_append]
  exact Nat.lt_succ_self _

theorem last {x : Patch α} {f : α → Patch β} (first : Follows NoFewer x)
    (splices : ∀ a, Splicing (f a)) : Splicing (x >>= f) := by
  intro s b t h
  obtain ⟨a, u, before, after⟩ := gives_bind.mp h
  exact Nat.lt_of_le_of_lt (first.gives before) (splices a u b t after)

theorem ite {c : Prop} [Decidable c] {x y : Patch α} (left : Splicing x) (right : Splicing y) :
    Splicing (if c then x else y) := by
  split
  · exact left
  · exact right

theorem refuse (e : PatchError) (f : α → Patch β) : Splicing ((throw e : Patch α) >>= f) := by
  intro s b t h
  obtain ⟨_, _, refused, -⟩ := gives_bind.mp h
  exact absurd refused not_gives_throw

variable (n : Node) (v : Value)

theorem replacePrimitive : Splicing (Patch.replacePrimitive ed n v) :=
  last (tolerant_noFewer.ofFragment _) fun _ => splice _ _ _

theorem replaceBlock : Splicing (Patch.replaceBlock ed n v) := by
  have h := tolerant_noFewer
  refine ite (refuse _ _) (last (h.renderAt ed n v _) fun fragment => ?_)
  dsimp only
  refine ite ?_ ?_
  · refine last (h.lineBreak ed) fun _ => last (h.dump ed v false) fun _ => ?_
    refine last (h.indented ed _ _) fun _ => last (h.pure _) fun _ => ?_
    exact last (h.report rfl) fun _ => splice _ _ _
  · exact last (h.pure _) fun _ => last (h.report rfl) fun _ => splice _ _ _

theorem replaceValue (key : Node) : Splicing (Patch.replaceValue ed key n v) := by
  have h := tolerant_noFewer
  have finish : ∀ fragment : Text, Splicing (do
      Patch.note (.replacingValue key.shown n.start)
      Patch.splice key.stop.index (ed.trueEnd n) fragment) :=
    fun fragment => last (h.report rfl) fun _ => splice _ _ _
  refine ite ?_ (ite ?_ ?_)
  · refine last (h.ofLayout _) fun _ => last (h.lineBreak ed) fun _ => ?_
    refine last (h.dump ed v false) fun _ => last (h.indented ed _ _) fun _ => ?_
    exact last (h.pure _) finish
  · exact last (h.dump ed v false) fun _ => last (h.pure _) finish
  · exact last (h.ofFragment _) fun _ => last (h.pure _) finish

theorem replaceItem : Splicing (Patch.replaceItem ed n v) := by
  have h := tolerant_noFewer
  rw [Patch.replaceItem]
  split
  · refine last (h.ofPosition _) fun dash => ite ?_ ?_
    · exact last (h.renderAt ed n v _) fun _ => splice _ _ _
    · exact last (h.renderAt ed n v _) fun _ => splice _ _ _
  · intro s a t refused
    exact absurd refused not_gives_throw

/-- Writing a node anew splices. -/
theorem replaceWhole (key : Option Node) : Splicing (Patch.replaceWhole ed n v key) := by
  have h := tolerant_noFewer
  refine ite ?_ ?_
  · refine ite (last (h.dump ed v true) fun _ => splice _ _ _) ?_
    exact last (h.ofFragment _) fun _ => splice _ _ _
  · cases key with
    | some key => exact replaceValue n v key
    | none => exact ite (replaceItem n v) (ite (replaceBlock n v) (replacePrimitive n v))

/-- A run that splices is not still. -/
theorem not_still {x : Patch α} (h : Splicing x) {a : α} : ¬ Still x a := by
  rintro ⟨s, t, ran, still⟩
  exact Nat.ne_of_gt (h s a t ran) still

end Splicing

/-! ## What a still round has looked at -/

section

variable {ed : Editing} {n : Node} {v : Value} {key : Option Node}

theorem settledValue?_still {w : Option Value} (h : Still (settledValue? ed n) w) :
    (∃ x, ed.tree.construct n = .ok x ∧ w = some x) ∨
      ∃ e, ed.tree.construct n = .error (.compose e) ∧ w = none := by
  rw [settledValue?] at h
  split at h
  · next x made => exact .inl ⟨x, made, h.pure.symm⟩
  · next e made => exact .inr ⟨e, made, h.pure.symm⟩
  · obtain ⟨_, _, ran, -⟩ := h
    exact absurd ran not_gives_throw

/-- What a still run knows of an alias: it stands for something, and for the value at its place if it
can be constructed. -/
theorem settleAlias_still {target : Option (Nat × Tag)} (h : Still (settleAlias ed n target v key) ⟨⟩) :
    target.isSome = true ∧ (∀ x, ed.tree.construct n = .ok x → Value.equal x v = true) ∧
      ∀ e, ed.tree.construct n = .error e → ∃ fault, e = .compose fault := by
  have follows := tolerant_noFewer
  have rewrite : Splicing (do
      note (.expandingAlias n.start)
      replaceWhole ed n v key) :=
    .last (follows.report rfl) fun _ => .replaceWhole n v key
  have write : ∀ keeps : Bool, Follows NoFewer (do
      if !keeps then
        note (.expandingAlias n.start)
        replaceWhole ed n v key) := by
    intro keeps
    refine Tolerant.ite ?_ (follows.pure _)
    exact follows.bind (follows.report rfl) fun _ =>
      follows.replaceWhole ed (writes_any ed) (anchored_any n) v key
  rw [settleAlias] at h
  cases known : target.isSome with
  | false =>
    rw [known, if_neg Bool.false_ne_true] at h
    obtain ⟨keeps, answer, rest⟩ := h.bind (follows.pure _) write
    cases answer.pure
    exact absurd rest rewrite.not_still
  | true =>
    rw [known, if_pos rfl] at h
    refine ⟨rfl, ?_⟩
    obtain ⟨w, looked, rest⟩ := h.bind (follows.settledValue? ed n) <| by
      intro w
      cases w with
      | none => exact follows.bind (follows.pure _) write
      | some w => exact follows.bind (follows.pure _) write
    rcases settledValue?_still looked with ⟨x, made, rfl⟩ | ⟨e, failed, rfl⟩
    · rw [made]
      refine ⟨?_, by rintro _ ⟨⟩⟩
      rintro _ ⟨⟩
      obtain ⟨keeps, answer, rest⟩ := rest.bind (follows.pure _) write
      cases answer.pure
      cases equal : Value.equal x v with
      | true => rfl
      | false =>
        rw [equal] at rest
        exact absurd rest rewrite.not_still
    · rw [failed]
      refine ⟨by rintro _ ⟨⟩, ?_⟩
      rintro _ ⟨⟩
      exact ⟨e, rfl⟩

/-- A still run goes on to the pairs of a mapping, unless that merges others and cannot be
constructed. -/
theorem planMerges_still {entries : List (Value × Value)} {plan : MergePlan}
    (h : Still (planMerges ed n v entries key) plan)
    (whole : n.pairs.any (isMerge ed) = true → ∃ x, ed.tree.construct n = .ok x) :
    ∃ stale, plan = .override stale := by
  have follows := tolerant_noFewer
  have replaced := follows.replaceWhole ed (writes_any ed) (anchored_any n) v key
  have kept : Follows NoFewer (do replaceWhole ed n v key; return MergePlan.finished) :=
    follows.bind replaced fun _ => follows.pure _
  have rewrite : ¬ Still (do replaceWhole ed n v key; return MergePlan.finished) plan := by
    intro h
    obtain ⟨_, ran, -⟩ := h.bind replaced fun _ => follows.pure _
    exact (Splicing.replaceWhole n v key).not_still ran
  rw [planMerges] at h
  split at h
  · exact ⟨[], h.pure.symm⟩
  · next merges =>
    obtain ⟨x, made⟩ := whole (by simpa using merges)
    have last : ∀ current own, Follows NoFewer (do
        let stale ← staleEntries current own entries
        if !stale.isEmpty && n.isFlow then
          replaceWhole ed n v key
          return MergePlan.finished
        return MergePlan.override stale) := fun current own =>
      follows.bind (follows.staleEntries current own entries) fun _ =>
        Tolerant.ite kept (follows.pure _)
    obtain ⟨current, looked, h⟩ := h.bind (follows.settledValue? ed n) <| by
      intro current
      cases current with
      | none => exact Tolerant.ite kept (follows.pure _)
      | some current =>
        exact follows.bind (follows.ownKeys ed n) fun own =>
          follows.bind (follows.dropsMergedKey ed n current v) fun _ =>
            Tolerant.ite kept (last current own)
    rcases settledValue?_still looked with ⟨current, -, rfl⟩ | ⟨e, failed, rfl⟩
    · obtain ⟨own, -, h⟩ := h.bind (follows.ownKeys ed n) fun own =>
        follows.bind (follows.dropsMergedKey ed n current v) fun _ =>
          Tolerant.ite kept (last current own)
      obtain ⟨drops, -, h⟩ := h.bind (follows.dropsMergedKey ed n current v) fun _ =>
        Tolerant.ite kept (last current own)
      split at h
      · exact absurd h rewrite
      · obtain ⟨stale, -, h⟩ := h.bind (follows.staleEntries current own entries) fun _ =>
          Tolerant.ite kept (follows.pure _)
        split at h
        · exact absurd h rewrite
        · exact ⟨stale, h.pure.symm⟩
    · rw [made] at failed
      cases failed

/-- A still run is still at the value of each pair with a key of the dictionary. -/
theorem settlePairs_still {settle : Node → Value → Option Node → Patch Unit}
    (inner : ∀ n v key, Follows NoFewer (settle n v key)) {entries : List (Value × Value)}
    {pairs : List (Nat × Nat)} (h : Still (settlePairs ed settle entries pairs) ⟨⟩) {p : Nat × Nat}
    (hp : p ∈ pairs) {k w : Value} (spelled : spelledKey? ed p = some k)
    (held : Value.find? entries k = some w) :
    Still (settle (ed.node p.2) w (some (ed.node p.1))) ⟨⟩ := by
  have follows := tolerant_noFewer
  induction pairs with
  | nil => cases hp
  | cons q pairs ih =>
    have rest := follows.settlePairs ed (fun i => inner (ed.node i)) entries pairs
    rw [settlePairs] at h
    obtain ⟨found, ⟨s, u, key, -⟩, h⟩ := h.bind (follows.scalarKey ed q.1) <| by
      intro found
      dsimp only
      split
      · split
        · exact follows.bind (inner _ _ _) fun _ => rest
        · exact rest
      · exact rest
    obtain ⟨rfl, -⟩ := gives_scalarKey key
    rcases List.mem_cons.mp hp with rfl | later
    · rw [spelled] at h
      dsimp only at h
      rw [held] at h
      obtain ⟨_, h, -⟩ := h.bind (inner _ _ _) fun _ => rest
      exact h
    · refine ih ?_ later
      cases spelled' : spelledKey? ed q with
      | none =>
        rw [spelled'] at h
        exact h
      | some key =>
        rw [spelled'] at h
        dsimp only at h
        split at h
        · obtain ⟨_, -, h⟩ := h.bind (inner _ _ _) fun _ => rest
          exact h
        · exact h

/-- A still run is still at each item of a sequence that has a place in the list. -/
theorem settleItems_still {settle : Node → Value → Option Node → Patch Unit}
    (inner : ∀ n v key, Follows NoFewer (settle n v key)) {items : List Nat} {values : List Value}
    (h : Still (settleItems ed settle items values) ⟨⟩) {j c : Nat} {w : Value}
    (item : items[j]? = some c) (value : values[j]? = some w) :
    Still (settle (ed.node c) w none) ⟨⟩ := by
  induction items generalizing values j with
  | nil => cases item
  | cons d items ih =>
    cases values with
    | nil => cases value
    | cons v values =>
      rw [settleItems] at h
      obtain ⟨_, here, rest⟩ := h.bind (inner _ _ _) fun _ =>
        tolerant_noFewer.settleItems ed (fun i => inner (ed.node i)) items values
      cases j with
      | zero =>
        cases item
        cases value
        exact here
      | succ j => exact ih rest item value

variable {depth : Nat}

theorem follows_settleAt (n : Node) (v : Value) (key : Option Node) :
    Follows NoFewer (settleAt ed depth n v key) :=
  tolerant_noFewer.settleAt ed (writes_any ed) depth (anchored_any n) v key

/-- Settling a mapping that is not passed by settles its pairs. -/
theorem settleAt_still_entry {id : Option Nat} {entries : List (Value × Value)}
    (h : Still (settleAt ed (depth + 1) n (.dict id entries) key) ⟨⟩)
    (whole : n.pairs.any (isMerge ed) = true → ∃ x, ed.tree.construct n = .ok x) {p : Nat × Nat}
    (listed : p ∈ n.pairs) {k w : Value} (spelled : spelledKey? ed p = some k)
    (held : Value.find? entries k = some w) :
    Still (settleAt ed depth (ed.node p.2) w (some (ed.node p.1))) ⟨⟩ := by
  have follows := tolerant_noFewer
  cases body : n.body with
  | mapping tag frame pairs =>
    rw [Node.pairs, body] at listed
    unfold settleAt at h
    rw [body] at h
    have inner (i : Nat) (v : Value) (key : Option Node) :
        Follows NoFewer (settleAt ed depth (ed.node i) v key) := follows_settleAt ..
    have settled := follows.settlePairs ed inner entries pairs
    obtain ⟨plan, planned, h⟩ :=
      h.bind (follows.planMerges ed (writes_any ed) (anchored_any n) _ _ key) <| by
        intro plan
        cases plan with
        | finished => exact follows.pure _
        | override stale =>
          exact follows.bind settled fun _ => follows.addOverrides ed (writes_any ed) n trivial stale
    obtain ⟨stale, rfl⟩ := planMerges_still planned whole
    obtain ⟨_, h, -⟩ := h.bind settled fun _ => follows.addOverrides ed (writes_any ed) n trivial stale
    exact settlePairs_still follows_settleAt h listed spelled held
  | _ =>
    rw [Node.pairs, body] at listed
    cases listed

/-- Settling a sequence settles its items. -/
theorem settleAt_still_item {id : Option Nat} {values : List Value}
    (h : Still (settleAt ed (depth + 1) n (.list id values) key) ⟨⟩) {j c : Nat} {w : Value}
    (item : n.items[j]? = some c) (value : values[j]? = some w) :
    Still (settleAt ed depth (ed.node c) w none) ⟨⟩ := by
  cases body : n.body with
  | sequence tag frame items =>
    rw [Node.items, body] at item
    unfold settleAt at h
    rw [body] at h
    exact settleItems_still follows_settleAt h item value
  | _ =>
    rw [Node.items, body] at item
    cases item

theorem mem_children_of_items {j c : Nat} (item : n.items[j]? = some c) : c ∈ n.children := by
  cases body : n.body with
  | sequence tag frame items =>
    rw [Node.items, body] at item
    rw [Node.children, body]
    exact List.mem_of_getElem? item
  | _ =>
    rw [Node.items, body] at item
    cases item

/-- The places that settling compares with a value: the document's node with all of it, the values of
the pairs of a mapping with those of a dictionary under the keys that it spells out, and the items of a
sequence with those of a list. A mapping that merges others is passed by unless it can be
constructed. -/
inductive Reaches (ed : Editing) (v : Value) : Nat → Value → Prop
  | root : Reaches ed v 0 v
  | entry {i : Nat} {n : Node} {id : Option Nat} {entries : List (Value × Value)} {p : Nat × Nat}
    {k w : Value} (outer : Reaches ed v i (.dict id entries)) (here : ed.tree.node? i = some n)
    (whole : n.pairs.any (isMerge ed) = true → ∃ x, ed.tree.construct n = .ok x)
    (listed : p ∈ n.pairs) (spelled : spelledKey? ed p = some k)
    (held : Value.find? entries k = some w) : Reaches ed v p.2 w
  | item {i : Nat} {n : Node} {id : Option Nat} {values : List Value} {j c : Nat} {w : Value}
    (outer : Reaches ed v i (.list id values)) (here : ed.tree.node? i = some n)
    (item : n.items[j]? = some c) (value : values[j]? = some w) : Reaches ed v c w

/-- A still round is still at every place that it compares with a value. The depth suffices as children
come later in the row. -/
theorem Reaches.still (row : Tree.Row ed.tree.nodes 0 [0] ed.tree.nodes.size)
    (round : Still (settleRound ed v) ⟨⟩) {i : Nat} {w : Value} (reached : Reaches ed v i w) :
    ∀ n ∈ ed.tree.node? i, ∃ depth key, ed.tree.nodes.size < depth + i ∧
      Still (settleAt ed depth n w key) ⟨⟩ := by
  have later : ∀ i, ∀ n ∈ ed.tree.node? i, ∀ c ∈ n.children, i < c ∧ c < ed.tree.nodes.size := by
    intro i n here c hc
    obtain ⟨stop, bound, part⟩ := row.at_ (Nat.zero_le i) (Array.getElem?_eq_some_iff.mp here).1
    obtain ⟨n', same, below⟩ := part.children
    cases here.symm.trans same
    have range := below.inside c hc
    omega
  induction reached with
  | root =>
    intro n here
    rw [settleRound, show ed.tree.root? = some n from here] at round
    exact ⟨_, none, by omega, round⟩
  | @entry i n id entries p k w outer here whole listed spelled held ih =>
    intro m there
    obtain ⟨depth, key, enough, h⟩ := ih n here
    have range := later i n here p.2 (Node.mem_children_of_mem_pairs listed).2
    obtain ⟨depth, rfl⟩ : ∃ d, depth = d + 1 := ⟨depth - 1, by omega⟩
    have still := settleAt_still_entry h whole listed spelled held
    rw [show ed.node p.2 = m from node_of_found there] at still
    exact ⟨depth, _, by omega, still⟩
  | @item i n id values j c w outer here item value ih =>
    intro m there
    obtain ⟨depth, key, enough, h⟩ := ih n here
    have range := later i n here c (mem_children_of_items item)
    obtain ⟨depth, rfl⟩ : ∃ d, depth = d + 1 := ⟨depth - 1, by omega⟩
    have still := settleAt_still_item h item value
    rw [show ed.node c = m from node_of_found there] at still
    exact ⟨depth, _, by omega, still⟩

end

end Patch

open Patch

/-- An alias of a mapping that holds an alias without a node, and one of a list. -/
def halfKnown : Text :=
  "- &a {k: *u}\n- *a\n- &b [1]\n- *b\n".toList

/-- A value that settling does not take `halfKnown` any nearer to. -/
def halfKnownValue : Value :=
  .list none [.dict none [], .null, .list none [.int 1], .list none [.int 1]]

/-- Whether a round of settling splices nothing. -/
def isStill (t : Tree) (layout : Layout) (v : Value) : Bool :=
  match (settleRound ⟨t, layout⟩ v).run.run { draft := .ofText t.text } with
  | (.ok _, s) => s.draft.text == t.text && s.draft.delta == 0 && s.draft.edits.isEmpty
  | (.error _, _) => false

theorem gives_of_isStill {t : Tree} {layout : Layout} {v : Value} (h : isStill t layout v = true) :
    ∃ notices, Gives (Noted.patch ⟨t, layout⟩ (settleRound ⟨t, layout⟩ v)) [] (.ofText t.text)
      notices := by
  rw [isStill] at h
  split at h
  · next s ran =>
    refine ⟨s.notices, Noted.gives_patch.mpr ⟨s, ran, ?_, rfl⟩⟩
    obtain ⟨⟨text, delta, edits⟩, notices⟩ := s
    simp only [Bool.and_eq_true, beq_iff_eq, List.isEmpty_iff] at h
    obtain ⟨⟨rfl, rfl⟩, rfl⟩ := h
    rfl
  · cases h

/-- The text that settling gives, if it does. -/
def settled? (text : Text) (v : Value) (layout : Layout) : Option Text :=
  (((settleAliases text v layout).run.run []).1).toOption

theorem gives_of_settled? {text settled : Text} {v : Value} {layout : Layout}
    (h : settled? text v layout = some settled) :
    ∃ notices, Gives (settleAliases text v layout) [] settled notices := by
  rw [settled?] at h
  rcases ran : (settleAliases text v layout).run.run [] with ⟨e | a, notices⟩
  · rw [ran] at h
    cases h
  · rw [ran] at h
    cases h
    exact ⟨notices, ran⟩

/-- A mapping that merges another one, with an alias of its own that stands for no node. -/
def unknownBeside : Text :=
  "m:\n  <<: {a: 1}\n  b: *u\n".toList

/-- A value for `unknownBeside`. -/
def unknownBesideValue : Value :=
  .dict none [(.str ['m'], .dict none [(.str ['a'], .int 1), (.str ['b'], .int 5)])]

end YamlEdit
