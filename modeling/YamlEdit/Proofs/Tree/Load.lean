import YamlEdit.Proofs.Tree.Preorder

/-!
# A tree loads like its text

The value of a tree is the value of the text that it was composed from: searching the tree from its
first node gives the graph of the text, but for places. So both ways end in the same value, with the
same containers shared and the same containers inside of themselves, or in errors of one cause.
-/

namespace YamlEdit.Tree

/-- The value of a tree: of its first node, and null where there is none. -/
def value (t : Tree) : Except LoadError Value :=
  match t.root? with
  | some root => t.construct root
  | none => .ok .null

/-- A node leads to the same vertex by its place and by the search. -/
theorem vertexOf_own {t : Tree} (sound : Sound t.nodes) {i : Nat} (inside : i < t.nodes.size) :
    Graph.vertexOf t (own t.nodes t.nodes.size) i = place t.nodes i := by
  have here : t.node? i = some t.nodes[i] := Array.getElem?_eq_getElem inside
  rw [Graph.vertexOf, place, here, Option.bind_some, show t.nodes[i]? = _ from here,
    Option.bind_some]
  cases link : t.nodes[i].link? with
  | none =>
    have alone : t.nodes[i].isAlias = false := Node.link?_eq_none.mp link
    rw [target?_of_not_alias alone]
    dsimp only
    rw [sound.index i _ here, idxOf_own inside (isOwn_iff.mpr ⟨_, here, alone⟩)]
  | some target =>
    obtain ⟨aim, rfl, before, mine⟩ := sound.link i _ here target link
    obtain ⟨m, there, -⟩ := isOwn_iff.mp mine
    rw [(target?_of_link link).1, show t.node? aim = some m from there]
    dsimp only
    rw [sound.index aim m there, idxOf_own (by omega) mine]

/-- What the search makes of a node is the vertex that mirrors it. -/
theorem vertexFor_own {t : Tree} (sound : Sound t.nodes) {i : Nat} {n : Node}
    (here : t.nodes[i]? = some n) :
    Graph.vertexFor t (own t.nodes t.nodes.size) i = vertexBy (place t.nodes) n.body := by
  have same : Graph.vertexFor t (own t.nodes t.nodes.size) i =
      vertexBy (Graph.vertexOf t (own t.nodes t.nodes.size)) n.body := by
    rw [Graph.vertexFor, show t.node? i = some n from here]
    dsimp only
    cases n.body <;> rfl
  rw [same]
  exact vertexBy_congr fun c hc => vertexOf_own sound (sound.child i n here c hc)

theorem bare_vertexBy (lead : Nat → Nat) (body : Node.Body) :
    (vertexBy lead body).bare = vertexBy lead body := by
  cases body <;> rfl

/-- The nodes that the search finds are the vertices of the text, but for places. -/
theorem sameVertices_own {g : Graph} {t : Tree} (h : Beside g t) :
    SameVertices g.vertices ((own t.nodes t.nodes.size).map
      (Graph.vertexFor t (own t.nodes t.nodes.size))).toArray := by
  have apart : (own t.nodes t.nodes.size).Nodup := List.nodup_range.filter _
  have row : ∀ (f : Nat → Vertex) (l : List Nat) (k : Nat),
      ((l.map f).toArray)[k]? = (l[k]?).map f := by
    intro f l k
    rw [List.getElem?_toArray, List.getElem?_map]
  refine ⟨?_, ?_⟩
  · simpa [rank] using h.size
  · intro k
    rw [row]
    cases found : (own t.nodes t.nodes.size)[k]? with
    | none =>
      have outside : (own t.nodes t.nodes.size).length ≤ k := List.getElem?_eq_none_iff.mp found
      have none : g.vertices[k]? = none :=
        Array.getElem?_eq_none_iff.mpr (Nat.le_trans (Nat.le_of_eq h.size) outside)
      rw [none]
      rfl
    | some i =>
      obtain ⟨inside, mine⟩ := mem_own.mp (List.mem_of_getElem? found)
      obtain ⟨n, here, alone⟩ := isOwn_iff.mp mine
      have number : rank t.nodes i = k :=
        (List.getElem?_inj (rank_lt inside mine) apart).mp
          ((getElem?_own inside mine).trans found.symm)
      have mirror := h.vertices i n here alone
      rw [number] at mirror
      rw [mirror, Option.map_some, Option.map_some,
        vertexFor_own h.sound here, bare_vertexBy]

/-- The graph of a tree's first node loads like the graph beside the tree. -/
theorem agree_ofTree {g : Graph} {t : Tree} (h : Beside g t) (row : Row t.nodes 0 [0] t.nodes.size)
    {n : Node} (root : t.root? = some n) :
    ∃ own, Graph.ofTree t n = .ok own ∧ AgreeBy SameCause (· = ·) g.load own.load := by
  have first : t.nodes[0]? = some n := root
  have search := reachable_eq h.sound row
  refine ⟨_, ?_, Graph.agree_load
    (h := { text := t.text, vertices := _ }) ⟨sameVertices_own h, h.root⟩⟩
  rw [Graph.ofTree, h.sound.index 0 n first, search]
  rfl

/-- A tree in a row has the value of the graph beside it. -/
theorem agree_value {g : Graph} {t : Tree} (h : Beside g t)
    (row : t.nodes.size = 0 ∨ Row t.nodes 0 [0] t.nodes.size) :
    AgreeBy SameCause (· = ·) (g.load.map Loaded.value) t.value := by
  rw [value]
  cases root : t.root? with
  | none =>
    have empty : t.nodes.size = 0 := Nat.le_zero.mp (Array.getElem?_eq_none_iff.mp root)
    have none : g.vertices.isEmpty = true := by
      rw [Array.isEmpty, h.size, empty]
      rfl
    rw [Graph.load, if_pos none]
    rfl
  | some n =>
    have some_ : 0 < t.nodes.size := (Array.getElem?_eq_some_iff.mp root).1
    obtain ⟨own, made, agree⟩ := agree_ofTree h (row.resolve_left (by omega)) root
    dsimp only
    rw [construct, made]
    exact agree.map fun _ _ same => congrArg Loaded.value same

/-- A text that loads is built of the graph of its tree's first node. -/
theorem load_ofTree {s : Text} {t : Tree} (composed : compose s = .ok t) {d : Loaded}
    (loads : load s = .ok d) {n : Node} (root : t.root? = some n) :
    ∃ own, Graph.ofTree t n = .ok own ∧ own.load = .ok d := by
  have agree := agree_compose s
  rw [composed] at agree
  cases parsed : Graph.compose s with
  | error e =>
    rw [parsed] at agree
    cases agree
  | ok g =>
    rw [parsed] at agree
    have some_ : 0 < t.nodes.size := (Array.getElem?_eq_some_iff.mp root).1
    obtain ⟨own, made, same⟩ :=
      agree_ofTree agree ((row_of_compose composed).resolve_left (by omega)) root
    rw [load, parsed] at loads
    obtain ⟨d', loads', rfl⟩ := same.ok loads
    exact ⟨own, made, loads'⟩

/-- A text that can be composed is loaded as its tree is. -/
theorem agree_loadValue {s : Text} {t : Tree} (composed : compose s = .ok t) :
    AgreeBy SameCause (· = ·) (loadValue s) t.value := by
  have agree := agree_compose s
  rw [composed] at agree
  rw [loadValue, load]
  cases parsed : Graph.compose s with
  | error e =>
    rw [parsed] at agree
    cases agree
  | ok g =>
    rw [parsed] at agree
    have value := agree_value agree (row_of_compose composed)
    show AgreeBy _ _ (g.load >>= _) _
    cases loaded : g.load <;> rw [loaded] at value <;> exact value

/-- That a text loads can be checked of its tree. -/
theorem exists_loaded {s : Text} {p : Tree → Value → Bool}
    (check : (compose s).toOption.any (fun t => t.value.toOption.any (p t)) = true) :
    ∃ t u, compose s = .ok t ∧ loadValue s = .ok u ∧ p t u = true := by
  obtain ⟨t, composed, check⟩ := exists_of_any check
  obtain ⟨u, value, checked⟩ := exists_of_any check
  have agree := agree_loadValue composed
  cases loads : loadValue s with
  | ok w =>
    obtain ⟨_, value', rfl⟩ := agree.ok loads
    cases value.symm.trans value'
    exact ⟨t, u, composed, rfl, checked⟩
  | error e =>
    rw [loads, value] at agree
    cases agree

/-- The tree of a text loads like the text: both ways end in the same value, identities and all, or
in errors that differ only in the places that they name. -/
theorem loads_like_text (s : Text) :
    AgreeBy SameCause (· = ·) (loadValue s) (do (← compose s).value) := by
  have composed := (agree_compose s).and_right fun t => row_of_compose (t := t)
  rw [loadValue, load, bind_assoc]
  refine composed.bind ?_
  rintro g t ⟨beside, row⟩
  have value := agree_value beside row
  cases loaded : g.load <;> rw [loaded] at value <;> exact value

end YamlEdit.Tree
