import YamlEdit.Patch.Diff
import YamlEdit.Tree.Compose

/-!
# Settling aliases

Changed nodes keep their anchors, so an alias may stand for another value than the one assigned at
its place, or for a node that is gone. Settling writes such aliases out, and adds overrides to
mappings whose merged keys have other values now. Writing an alias out can change a node that
encloses it, so the text is composed again until nothing changes.
-/

namespace YamlEdit

namespace Patch

/-- The value of a node; none if it holds an alias without a node. -/
def settledValue? (ed : Editing) (n : Node) : Patch (Option Value) :=
  match ed.tree.construct n with
  | .ok v => return some v
  | .error (.compose _) => return none
  | .error e => throw (.load e)

/-- Writes an alias out unless it stands for the value at its place. -/
def settleAlias (ed : Editing) (n : Node) (target : Option (Nat × Tag)) (v : Value)
    (key : Option Node) : Patch Unit := do
  let keeps ←
    if target.isSome then
      match ← settledValue? ed n with
      | none => pure true
      | some w => pure (Value.equal w v)
    else pure false
  if !keeps then
    note (.expandingAlias n.start)
    replaceWhole ed n v key

/-- Whether a pair of a mapping merges another in. -/
def isMerge (ed : Editing) (p : Nat × Nat) : Bool :=
  (ed.node p.1).tag? == some .merge

/-- Whether a pair merges an alias without a node in. -/
def mergesNothing (ed : Editing) (p : Nat × Nat) : Bool :=
  isMerge ed p &&
    match (ed.node p.2).body with
    | .aliasOf _ none => true
    | _ => false

/-- The entries of a dictionary whose keys a mapping does not spell out and whose values it does not
have either. -/
def staleEntries (current : Value) (own : List Value) :
    List (Value × Value) → Patch (List (Value × Value))
  | [] => return []
  | (key, value) :: r => do
    let isStale ←
      if own.any (Value.same key) then pure false
      else do
        let held ← ofLookup (current.held? key)
        pure (!held.any fun w => Value.equal w value)
    let more ← staleEntries current own r
    return if isStale then (key, value) :: more else more

/-- What has to be done for the merges of a mapping. -/
inductive MergePlan where
  /-- Nothing more: the mapping was written anew, or waits for the next round. -/
  | finished
  /-- Settle what it holds, and then add overrides. -/
  | override (entries : List (Value × Value))

/-- Finds what has to be done for the merges of a mapping, and writes it anew where overrides are
not enough. -/
def planMerges (ed : Editing) (n : Node) (v : Value) (entries : List (Value × Value))
    (key : Option Node) : Patch MergePlan := do
  if !n.pairs.any (isMerge ed) then return .override []
  match ← settledValue? ed n with
  | none =>
    if n.pairs.any (mergesNothing ed) then replaceWhole ed n v key
    return .finished
  | some current =>
    let own ← ownKeys ed n
    if ← dropsMergedKey ed n current v then
      replaceWhole ed n v key
      return .finished
    let stale ← staleEntries current own entries
    if !stale.isEmpty && n.isFlow then
      replaceWhole ed n v key
      return .finished
    return .override stale

/-- Settles the pairs that a mapping spells out. -/
def settlePairs (ed : Editing) (settle : Node → Value → Option Node → Patch Unit)
    (entries : List (Value × Value)) : List (Nat × Nat) → Patch Unit
  | [] => return
  | (k, p) :: r => do
    if let some key ← scalarKey ed k then
      if let some value := Value.find? entries key then
        settle (ed.node p) value (some (ed.node k))
    settlePairs ed settle entries r

/-- Settles the entries of a sequence. -/
def settleItems (ed : Editing) (settle : Node → Value → Option Node → Patch Unit) :
    List Nat → List Value → Patch Unit
  | i :: items, v :: values => do
    settle (ed.node i) v none
    settleItems ed settle items values
  | _, _ => return

/-- Adds overrides behind a mapping. -/
def addOverrides (ed : Editing) (n : Node) : List (Value × Value) → Patch Unit
  | [] => return
  | (key, value) :: r => do
    insertAfter ed n (← dump ed (.dict none [(key, value)]))
    addOverrides ed n r

/-- Settles what a node holds against a value. Children come later in the tree, so `depth` need not
exceed the number of nodes. -/
def settleAt (ed : Editing) : (depth : Nat) → Node → Value → Option Node → Patch Unit
  | 0, _, _, _ => return
  | depth + 1, n, v, key => do
    match n.body, v with
    | .aliasOf _ target, v => settleAlias ed n target v key
    | .mapping _ _ pairs, .dict _ entries =>
      match ← planMerges ed n v entries key with
      | .finished => return
      | .override stale =>
        settlePairs ed (settleAt ed depth) entries pairs
        addOverrides ed n stale
    | .sequence _ _ items, .list _ values => settleItems ed (settleAt ed depth) items values
    | _, _ => return

/-- One round of settling. -/
def settleRound (ed : Editing) (v : Value) : Patch Unit :=
  match ed.tree.root? with
  | some root => settleAt ed (ed.tree.nodes.size + 1) root v none
  | none => return

end Patch

/-- Work that reports notices, last one first. -/
abbrev Noted (ε : Type) := ExceptT ε (StateM (List Notice))

namespace Noted

/-- Reports something. -/
def note {ε : Type} (n : Notice) : Noted ε Unit :=
  modify (n :: ·)

/-- Makes changes to the text of a tree and answers the draft. -/
def patch (ed : Editing) (changes : Patch Unit) : Noted PatchError Draft := do
  let (result, session) := changes.run.run { draft := .ofText ed.tree.text, notices := ← get }
  set session.notices
  match result with
  | .ok _ => return session.draft
  | .error e => throw e

end Noted

/-- Rounds of settling, at most `rounds` of them. -/
def settleRounds (v : Value) (layout : Layout) : (rounds : Nat) → Text → Noted PatchError Text
  | 0, text => return text
  | rounds + 1, text =>
    match Tree.compose text true with
    | .error e => throw (.load e)
    | .ok tree => do
      let draft ← Noted.patch ⟨tree, layout⟩ (Patch.settleRound ⟨tree, layout⟩ v)
      if draft.text = text then return text else settleRounds v layout rounds draft.text

/-- Makes the aliases and merges of a text yield a value again. Every round but the last writes an
alias out, so there are no more rounds than stars in the text, and one. -/
def settleAliases (text : Text) (v : Value) (layout : Layout) : Noted PatchError Text :=
  settleRounds v layout (text.count '*' + 1) text

end YamlEdit
