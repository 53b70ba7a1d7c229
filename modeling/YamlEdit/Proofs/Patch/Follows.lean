import YamlEdit.Proofs.Outcome
import YamlEdit.Proofs.Patch.Append

/-!
# What all patches keep

A patch does two things to its session, however deep it goes: it splices the draft, and it reports
what it does. So a relation between sessions that both of these respect, step after step, holds
between the two ends of every patch and of every round of settling, also of one that fails.

A relation may respect splices of some ranges only. Then it holds between the ends of the patches
that splice no others, and every part of a patch says which ranges it may splice. Or it may respect
splices of texts of some letters only; those that a patch puts in come from few places, all of them
fragments of values, line breaks and the anchors of nodes.
-/

namespace YamlEdit.Patch

/-- Every range may be spliced. -/
def Anywhere (_ _ : Int) : Prop :=
  True

/-- Every character may be put in. -/
def AnyLetter (_ : Char) : Prop :=
  True

/-- A text of the letters that may be put in. -/
def Spelled (letter : Char → Prop) (s : Text) : Prop :=
  ∀ c ∈ s, letter c

/-- A relation between sessions that the steps of patches respect, as far as they splice the ranges
that are allowed, with texts of the letters that are. -/
structure Tolerant (R : Session → Session → Prop) (allowed : Int → Int → Prop)
    (letter : Char → Prop) : Prop where
  refl : ∀ s, R s s
  trans : ∀ s t u, R s t → R t u → R s u
  note : ∀ (s : Session) (n : Notice), n.level = .debug → R s { s with notices := n :: s.notices }
  splice : ∀ (s : Session) (start stop : Int) (fragment : Text), allowed start stop →
    Spelled letter fragment → R s { s with draft := s.draft.splice start stop fragment }

/-- The two ends of every run of a patch are related, whether it answers or fails. -/
structure Follows {α : Type} (R : Session → Session → Prop) (x : Patch α) : Prop where
  run : ∀ s, R s (x.run.run s).2

theorem Follows.gives {α : Type} {R : Session → Session → Prop} {x : Patch α} (h : Follows R x)
    {s t : Session} {a : α} (answers : Gives x s a t) : R s t := by
  have related := h.run s
  rw [Gives] at answers
  rw [answers] at related
  exact related

/-- The ranges that erasing an entry may splice. -/
def Erases (text : Text) (start stop first last : Int) : Prop :=
  (first = start ∧ last = stop) ∨
    ∃ tail : Int, Text.lineTailAt text stop = .ok (some tail) ∧
      Text.isBlankText
        (Text.between text (Text.lineStart text (Text.place text start)) start) = true ∧
      ((first = Text.lineStart text (Text.place text start) ∧
          (last = Text.skipBreakAt text tail ∨ last = tail)) ∨
        (Text.lineStart text (Text.place text start) ≠ 0 ∧
          first = Text.breakBefore text (Text.lineStart text (Text.place text start)) ∧
          last = tail))

/-- What changes of a pair may splice: its value, all behind its key, or the pair as a whole. -/
structure AllowsPair (ed : Editing) (allowed : Int → Int → Prop) (key n : Node) : Prop where
  value : allowed n.start.index (ed.trueEnd n)
  rest : allowed key.stop.index (ed.trueEnd n)
  entry : ∀ first last, Erases ed.tree.text key.start.index (ed.trueEnd n) first last →
    allowed first last

/-- What changes of an entry of a sequence at a column may splice: the entry, all behind its dash,
or the entry with its dash. -/
structure AllowsItem (ed : Editing) (allowed : Int → Int → Prop) (column : Int) (n : Node) :
    Prop where
  value : allowed n.start.index (ed.trueEnd n)
  rest : ∀ parent, n.parent = some parent → ∀ dash,
    Text.dashBefore ed.tree.text n.start.index (ed.node parent).content.column = .ok dash →
      allowed (dash + 1) (ed.trueEnd n)
  entry : ∀ dash, Text.dashBefore ed.tree.text n.start.index column = .ok dash →
    ∀ first last, Erases ed.tree.text dash (ed.trueEnd n) first last → allowed first last

/-- Nodes that may be changed with all that is in them. -/
structure AllowsWithin (ed : Editing) (allowed : Int → Int → Prop) (Q : Node → Prop) : Prop where
  whole : ∀ n, Q n → allowed n.start.index (ed.trueEnd n)
  flow : ∀ n, Q n → n.isFlow = true → allowed n.start.index n.stop.index
  append : ∀ n, Q n → allowed (ed.tree.appendPoint n) (ed.tree.appendPoint n)
  child : ∀ n, Q n → ∀ c ∈ n.children, Q (ed.node c)
  pair : ∀ n, Q n → ∀ p ∈ n.pairs, (spelledKey? ed p).isSome = true →
    AllowsPair ed allowed (ed.node p.1) (ed.node p.2)
  item : ∀ n, Q n → n.isFlow = false → ∀ c ∈ n.items,
    AllowsItem ed allowed n.content.column (ed.node c)

/-- Where every range may be spliced, every node may be changed. -/
theorem allowsWithin_all (ed : Editing) :
    AllowsWithin ed Anywhere (fun _ => True) where
  whole := fun _ _ => trivial
  flow := fun _ _ _ => trivial
  append := fun _ _ => trivial
  child := fun _ _ _ _ => trivial
  pair := fun _ _ _ _ _ => ⟨trivial, trivial, fun _ _ _ => trivial⟩
  item := fun _ _ _ _ _ => ⟨trivial, fun _ _ _ _ => trivial, fun _ _ _ _ _ => trivial⟩

/-- A key that a new value has with the value it had. -/
def KeepsKey (old new key : Value) : Prop :=
  ∃ held value, old.held? key = .ok (some held) ∧ new.held? key = .ok (some value) ∧
    Value.equal held value = true

/-- A position at which a new value has what was there. -/
def KeepsItem (old new : Value) (position : Nat) : Prop :=
  ∃ held value, old.item (.int position) = .ok held ∧ new.item (.int position) = .ok value ∧
    Value.equal held value = true

theorem pairs_of_pairsOf {n : Node} {pairs : List (Nat × Nat)} {s t : Session}
    (h : Gives (pairsOf n) s pairs t) : pairs = n.pairs := by
  rw [pairsOf] at h
  rw [Node.pairs]
  split at h
  · next body =>
    rw [body]
    exact (gives_pure.mp h).1.symm
  all_goals
    next body =>
      rw [body]
      first
        | exact absurd h not_gives_throw
        | split at h
          · exact (gives_pure.mp h).1.symm
          · exact absurd h not_gives_throw

theorem items_of_itemsOf {ed : Editing} {n : Node} {nodes : List Node} {s t : Session}
    (h : Gives (itemsOf ed n) s nodes t) : nodes = n.items.map ed.node := by
  rw [itemsOf] at h
  rw [Node.items]
  split at h
  · next body =>
    rw [body]
    exact (gives_pure.mp h).1.symm
  all_goals
    next body =>
      rw [body]
      first
        | exact absurd h not_gives_throw
        | split at h
          · exact (gives_pure.mp h).1.symm
          · exact absurd h not_gives_throw

/-! ## New text -/

/-- Where the new text for a tree comes from, all of it in letters that may be put in. -/
structure Writes (ed : Editing) (letter : Char → Prop) : Prop where
  signs : Spelled letter " :&".toList
  breaks : ∀ f : Text, ed.layout.lineBreak = .text f → Spelled letter f
  dump : ∀ (v : Value) (flow : Bool) (f : Text), v.dump ed.layout flow = .ok f → Spelled letter f
  literal : ∀ (v : Value) (f : Text), v.scalarText = .ok f → Spelled letter f
  names : ∀ i, ∀ name ∈ (ed.node i).anchor, Spelled letter name

/-- Any new text is of some letters. -/
theorem writes_any (ed : Editing) : Writes ed AnyLetter where
  signs := fun _ _ => trivial
  breaks := fun _ _ _ _ => trivial
  dump := fun _ _ _ _ _ _ => trivial
  literal := fun _ _ _ _ _ => trivial
  names := fun _ _ _ _ _ => trivial

/-- An anchor, if there is one, is of the letters that may be put in. -/
def Anchored (letter : Char → Prop) (n : Node) : Prop :=
  ∀ name ∈ n.anchor, Spelled letter name

theorem anchored_any (n : Node) : Anchored AnyLetter n :=
  fun _ _ _ _ => trivial

namespace Spelled

variable {letter : Char → Prop} {s t : Text}

theorem nil : Spelled letter [] :=
  List.forall_mem_nil _

theorem cons {c : Char} (first : letter c) (h : Spelled letter s) : Spelled letter (c :: s) :=
  List.forall_mem_cons.mpr ⟨first, h⟩

theorem append (h : Spelled letter s) (h' : Spelled letter t) : Spelled letter (s ++ t) :=
  List.forall_mem_append.mpr ⟨h, h'⟩

theorem take (h : Spelled letter s) (n : Nat) : Spelled letter (s.take n) :=
  fun c hc => h c (List.mem_of_mem_take hc)

theorem drop (h : Spelled letter s) (n : Nat) : Spelled letter (s.drop n) :=
  fun c hc => h c (List.mem_of_mem_drop hc)

theorem splitAfter (h : Spelled letter s) (sep : Text) (skip : Nat) :
    ∀ piece ∈ Text.splitAfter sep skip s, Spelled letter piece := by
  induction s generalizing skip with
  | nil => exact List.forall_mem_singleton.mpr nil
  | cons c r ih =>
    obtain ⟨first, rest⟩ := List.forall_mem_cons.mp h
    cases skip with
    | succ skip => exact ih rest skip
    | zero =>
      rw [Text.splitAfter]
      split
      · exact List.forall_mem_cons.mpr ⟨nil, ih rest _⟩
      · have pieces := ih rest 0
        split
        · exact List.forall_mem_singleton.mpr (nil.cons first)
        · next cut =>
          rw [cut] at pieces
          obtain ⟨piece, more⟩ := List.forall_mem_cons.mp pieces
          exact List.forall_mem_cons.mpr ⟨piece.cons first, more⟩

theorem intercalate {sep : Text} (between : Spelled letter sep) {pieces : List Text}
    (h : ∀ piece ∈ pieces, Spelled letter piece) : Spelled letter (sep.intercalate pieces) := by
  induction pieces with
  | nil => exact nil
  | cons first r ih =>
    obtain ⟨this, rest⟩ := List.forall_mem_cons.mp h
    cases r with
    | nil =>
      rw [List.intercalate_singleton]
      exact this
    | cons second r =>
      rw [List.intercalate_cons_cons]
      exact (this.append between).append (ih rest)

/-- The lines of a text behind spaces are of its letters, spaces and what stands between them. -/
theorem indent (h : Spelled letter s) (space : letter ' ') {lineBreak : Text}
    (breaks : Spelled letter lineBreak) (depth : Nat) :
    Spelled letter (s.indent depth lineBreak) := by
  have lines : ∀ l ∈ (Text.splitOn s lineBreak).map (Text.indentLine depth), Spelled letter l := by
    refine List.forall_mem_map.mpr fun line hl => ?_
    rw [Text.indentLine]
    split
    · exact nil
    · refine append ?_ (h.splitAfter _ _ line hl)
      intro c hc
      rw [List.eq_of_mem_replicate hc]
      exact space
  exact intercalate breaks lines

end Spelled

namespace Writes

variable {ed : Editing} {letter : Char → Prop} (w : Writes ed letter) {s : Text} {a b : Session}
include w

theorem space : letter ' ' :=
  w.signs ' ' (by simp)

theorem colon : letter ':' :=
  w.signs ':' (by simp)

theorem ampersand : letter '&' :=
  w.signs '&' (by simp)

theorem of_dump {v : Value} {flow : Bool} {f : Text} (h : Gives (Patch.dump ed v flow) a f b) :
    Spelled letter f :=
  w.dump v flow f (gives_dump.mp h).1

theorem of_literal {v : Value} {f : Text} (h : Gives (ofFragment v.scalarText) a f b) :
    Spelled letter f :=
  w.literal v f (gives_ofFragment.mp h).1

theorem of_lineBreak {f : Text} (h : Gives (Patch.lineBreak ed) a f b) : Spelled letter f := by
  obtain ⟨h, -⟩ := gives_ofLayout.mp h
  rw [Layout.breakText] at h
  split at h
  · next spells =>
    cases h
    exact w.breaks _ spells
  · cases h

theorem of_indented {columns : Columns} {f : Text} (text : Spelled letter s)
    (h : Gives (Patch.indented ed s columns) a f b) : Spelled letter f := by
  obtain ⟨h, -⟩ := gives_ofLayout.mp h
  rw [Layout.indented] at h
  obtain ⟨depth, -, h⟩ := bind_eq_ok.mp h
  split at h
  · cases h
  · next spells =>
    cases h
    exact text.indent w.space (w.breaks _ spells) depth
  · cases h
  · cases h

theorem spelled_anchored {n : Node} (named : Anchored letter n) (text : Spelled letter s) :
    Spelled letter (anchored n s) := by
  rw [anchored]
  split
  · exact text
  · next name has =>
    exact ((named name has).append (text.cons w.space)).cons w.ampersand

theorem of_renderAt {n : Node} (named : Anchored letter n) {v : Value} {column : Int} {f : Text}
    (h : Gives (Patch.renderAt ed n v column) a f b) : Spelled letter f := by
  obtain ⟨dumped, _, got, h⟩ := gives_bind.mp h
  obtain ⟨fragment, _, got', h⟩ := gives_bind.mp h
  have text := w.of_indented (w.of_dump got) got'
  have inLine := w.spelled_anchored named (text.drop (Text.place fragment column))
  dsimp only at h
  split at h
  · next name has =>
    split at h
    · obtain ⟨lineBreak, _, got, h⟩ := gives_bind.mp h
      obtain ⟨rfl, -⟩ := gives_pure.mp h
      exact (((named name has).append (w.of_lineBreak got)).append text).cons w.ampersand
    · obtain ⟨rfl, -⟩ := gives_pure.mp h
      exact inLine
  · obtain ⟨rfl, -⟩ := gives_pure.mp h
    exact inLine

end Writes

namespace Tolerant

variable {α β ε : Type} {R : Session → Session → Prop} {allowed : Int → Int → Prop}
  {letter : Char → Prop} (h : Tolerant R allowed letter)
include h

/-! ## Steps and chains -/

theorem pure (a : α) : Follows R (Pure.pure a : Patch α) :=
  ⟨fun s => h.refl s⟩

theorem throw (e : PatchError) : Follows R (MonadExcept.throw e : Patch α) :=
  ⟨fun s => h.refl s⟩

theorem refuse (e : PatchError) (f : α → Patch β) :
    Follows R ((MonadExcept.throw e : Patch α) >>= f) :=
  ⟨fun s => h.refl s⟩

/-- A chain, whose rest may count on what the first step answers. -/
theorem chain {x : Patch α} {f : α → Patch β} (first : Follows R x)
    (next : ∀ a s t, Gives x s a t → Follows R (f a)) : Follows R (x >>= f) := by
  refine ⟨?_⟩
  intro s
  have before := first.run s
  rw [run_chain]
  rcases ran : x.run.run s with ⟨e | a, t⟩
  · rw [ran] at before
    exact before
  · rw [ran] at before
    exact h.trans s t _ before ((next a s t ran).run t)

theorem bind {x : Patch α} {f : α → Patch β} (first : Follows R x) (next : ∀ a, Follows R (f a)) :
    Follows R (x >>= f) :=
  h.chain first fun a _ _ _ => next a

theorem given (a : α) {f : α → Patch β} (next : Follows R (f a)) :
    Follows R ((Pure.pure a : Patch α) >>= f) := by
  refine h.chain (h.pure a) fun b _ _ got => ?_
  obtain ⟨rfl, -⟩ := gives_pure.mp got
  exact next

omit h in
theorem ite {c : Prop} [Decidable c] {x y : Patch α} (left : Follows R x) (right : Follows R y) :
    Follows R (if c then x else y) := by
  split
  · exact left
  · exact right

theorem report {n : Notice} (debug : n.level = .debug) : Follows R (Patch.note n) :=
  ⟨fun s => h.note s n debug⟩

theorem put {start stop : Int} (may : allowed start stop) {fragment : Text}
    (text : Spelled letter fragment) : Follows R (Patch.splice start stop fragment) :=
  ⟨fun s => h.splice s start stop fragment may text⟩

theorem draft : Follows R Patch.draft :=
  ⟨fun s => h.refl s⟩

theorem ofLoad (x : Except LoadError α) : Follows R (Patch.ofLoad x) := by
  cases x with
  | error e => exact h.throw (.load e)
  | ok a => exact h.pure a

theorem ofLookup (x : Except LookupFault α) : Follows R (Patch.ofLookup x) := by
  cases x with
  | error e => exact h.throw (.lookup e)
  | ok a => exact h.pure a

theorem ofPosition (x : Except Text.Outside α) : Follows R (Patch.ofPosition x) := by
  cases x with
  | error e => exact h.throw (.outside e)
  | ok a => exact h.pure a

theorem ofLayout (x : Except LayoutFault α) : Follows R (Patch.ofLayout x) := by
  cases x with
  | error e => exact h.throw (.layout e)
  | ok a => exact h.pure a

theorem ofFragment (x : Except FragmentFault Text) : Follows R (Patch.ofFragment x) := by
  cases x with
  | error e => exact h.throw (.ofFragment e)
  | ok a => exact h.pure a

/-! ## Lines and replacements -/

variable (ed : Editing)

theorem dump (v : Value) (flow : Bool) : Follows R (Patch.dump ed v flow) :=
  h.ofFragment _

theorem indented (s : Text) (columns : Columns) : Follows R (Patch.indented ed s columns) :=
  h.ofLayout _

theorem lineBreak : Follows R (Patch.lineBreak ed) :=
  h.ofLayout _

theorem erase {start stop : Int}
    (may : ∀ first last, Erases ed.tree.text start stop first last → allowed first last) :
    Follows R (Patch.erase ed start stop) := by
  have entry := may start stop (.inl ⟨rfl, rfl⟩)
  refine h.chain (h.ofPosition _) ?_
  intro tail s t found
  obtain ⟨found, -⟩ := gives_ofPosition.mp found
  cases tail with
  | none => exact h.put entry .nil
  | some tail =>
    dsimp only
    split
    · exact h.put entry .nil
    · next blank =>
      have blank : Text.isBlankText (Text.between ed.tree.text
          (Text.lineStart ed.tree.text (Text.place ed.tree.text start)) start) = true := by
        simpa using blank
      split
      · exact h.put (may _ _ (.inr ⟨tail, found, blank, .inl ⟨rfl, .inl rfl⟩⟩)) .nil
      · next last =>
        have later : Text.lineStart ed.tree.text (Text.place ed.tree.text start) ≠ 0 := by
          intro zero
          rw [zero] at last
          exact last rfl
        refine h.bind h.draft fun _ => ite (h.put ?_ .nil) (h.put ?_ .nil)
        · exact may _ _ (.inr ⟨tail, found, blank, .inr ⟨later, rfl, rfl⟩⟩)
        · exact may _ _ (.inr ⟨tail, found, blank, .inl ⟨rfl, .inr rfl⟩⟩)

theorem insertAfter (w : Writes ed letter) (n : Node)
    (may : allowed (ed.tree.appendPoint n) (ed.tree.appendPoint n)) {fragment : Text}
    (text : Spelled letter fragment) : Follows R (Patch.insertAfter ed n fragment) := by
  refine h.chain (h.indented ed _ _) fun lines _ _ got => ?_
  have lines := w.of_indented text got
  refine h.bind (h.report rfl) fun _ => h.chain (h.lineBreak ed) fun lineBreak _ _ got => ?_
  have lineBreak := w.of_lineBreak got
  refine h.bind h.draft fun _ => h.bind (h.ofPosition _) fun _ => ?_
  exact ite (h.put may (lines.append lineBreak)) (h.put may (lineBreak.append lines))

theorem renderAt (n : Node) (v : Value) (column : Int) :
    Follows R (Patch.renderAt ed n v column) := by
  refine h.bind (h.dump ed v false) fun _ => h.bind (h.indented ed _ _) fun _ => ?_
  dsimp only
  split
  · exact ite (h.bind (h.lineBreak ed) fun _ => h.pure _) (h.pure _)
  · exact h.pure _

theorem replacePrimitive (w : Writes ed letter) {n : Node} (named : Anchored letter n)
    (may : allowed n.start.index (ed.trueEnd n)) (v : Value) :
    Follows R (Patch.replacePrimitive ed n v) := by
  refine h.chain (h.ofFragment _) fun _ _ _ got => h.put may ?_
  have literal := w.spelled_anchored named (w.of_literal got)
  split
  · exact literal.cons w.space
  · exact literal

theorem replaceBlock (w : Writes ed letter) {n : Node} (named : Anchored letter n)
    (may : allowed n.start.index (ed.trueEnd n)) (v : Value) :
    Follows R (Patch.replaceBlock ed n v) := by
  refine ite (h.refuse ..) ?_
  refine h.chain (h.renderAt ed n v _) fun fragment _ _ got => ?_
  have finish {fragment : Text} (text : Spelled letter fragment) : Follows R (do
      Patch.note (.replacingBlock n.kind n.start)
      Patch.splice n.start.index (ed.trueEnd n) fragment) :=
    h.bind (h.report rfl) fun _ => h.put may text
  dsimp only
  refine ite ?_ (h.given _ (finish (w.of_renderAt named got)))
  · refine h.chain (h.lineBreak ed) fun lineBreak _ _ broken => ?_
    refine h.chain (h.dump ed v false) fun _ _ _ dumped => ?_
    refine h.chain (h.indented ed _ _) fun lines _ _ lined => h.given _ ?_
    exact finish ((w.of_lineBreak broken).append (w.of_indented (w.of_dump dumped) lined))

theorem replaceFlow (w : Writes ed letter) {n : Node} (named : Anchored letter n)
    (may : allowed n.start.index n.stop.index) (v : Value) :
    Follows R (Patch.replaceFlow ed n v) :=
  h.chain (h.dump ed v true) fun _ _ _ dumped =>
    h.put may (w.spelled_anchored named (w.of_dump dumped))

theorem replaceValue (w : Writes ed letter) (key : Node) {n : Node} (named : Anchored letter n)
    (may : allowed key.stop.index (ed.trueEnd n)) (v : Value) :
    Follows R (Patch.replaceValue ed key n v) := by
  have finish {fragment : Text} (text : Spelled letter fragment) : Follows R (do
      Patch.note (.replacingValue key.shown n.start)
      Patch.splice key.stop.index (ed.trueEnd n) fragment) :=
    h.bind (h.report rfl) fun _ => h.put may text
  unfold Patch.replaceValue
  extract_lets head
  have lead : Spelled letter head := by
    unfold head
    split
    · exact Spelled.nil.cons w.colon
    · next name has => exact (((named name has).cons w.ampersand).cons w.space).cons w.colon
  refine ite ?_ (ite ?_ ?_)
  · refine h.bind (h.ofLayout _) fun _ => h.chain (h.lineBreak ed) fun _ _ _ broken => ?_
    refine h.chain (h.dump ed v false) fun _ _ _ dumped => ?_
    refine h.chain (h.indented ed _ _) fun _ _ _ lined => h.given _ ?_
    exact finish ((lead.append (w.of_lineBreak broken)).append
      (w.of_indented (w.of_dump dumped) lined))
  · refine h.chain (h.dump ed v false) fun _ _ _ dumped => h.given _ ?_
    exact finish (lead.append ((w.of_dump dumped).cons w.space))
  · refine h.chain (h.ofFragment _) fun _ _ _ got => h.given _ ?_
    exact finish (lead.append ((w.of_literal got).cons w.space))

/-- Replacing an entry of a sequence, by the column of the sequence around it. -/
theorem replaceItem (w : Writes ed letter) {n : Node} (named : Anchored letter n) {column : Int}
    (may : AllowsItem ed allowed column n) (v : Value) :
    Follows R (Patch.replaceItem ed n v) := by
  rw [Patch.replaceItem]
  split
  · next parent around =>
    refine h.chain (h.ofPosition _) fun dash _ _ found => ite ?_ ?_
    · refine h.chain (h.renderAt ed n v _) fun _ _ _ got => ?_
      exact h.put may.value (w.of_renderAt named got)
    · obtain ⟨found, -⟩ := gives_ofPosition.mp found
      refine h.chain (h.renderAt ed n v _) fun _ _ _ got => ?_
      exact h.put (may.rest parent around dash found) ((w.of_renderAt named got).cons w.space)
  · exact h.throw _

/-! ## Collections -/

theorem scalarKey (index : Nat) : Follows R (Patch.scalarKey ed index) := by
  unfold Patch.scalarKey
  dsimp only
  split
  · exact ite (h.pure _) (h.bind (h.ofLoad _) fun _ => h.pure _)
  · exact h.pure _

theorem ownKeys (n : Node) : Follows R (Patch.ownKeys ed n) := by
  rw [Patch.ownKeys]
  induction n.pairs with
  | nil =>
    rw [List.filterMapM_nil]
    exact h.pure _
  | cons p r ih =>
    rw [List.filterMapM_cons]
    refine h.bind (h.scalarKey ed p.1) ?_
    intro key
    cases key with
    | none => exact ih
    | some key => exact h.bind ih fun _ => h.pure _

theorem dropsMergedKey (n : Node) (old new : Value) :
    Follows R (Patch.dropsMergedKey ed n old new) := by
  unfold Patch.dropsMergedKey
  split
  · exact h.bind (h.ownKeys ed n) fun _ => h.bind (h.ofLookup _) fun _ => h.pure _
  · exact h.pure _

theorem patchPair (w : Writes ed letter) {patch : Node → Value → Value → Patch Unit} (key : Node)
    {n : Node} (named : Anchored letter n) (may : AllowsPair ed allowed key n)
    (inner : ∀ old new, Follows R (patch n old new)) (old new : Value) :
    Follows R (Patch.patchPair ed patch key n old new) := by
  have rewrite := h.replaceValue ed w key named may.rest new
  refine ite (h.replacePrimitive ed w named may.value new) (ite ?_ rewrite)
  exact h.bind (h.dropsMergedKey ed n old new) fun _ => ite rewrite (inner old new)

theorem pairsOf (n : Node) : Follows R (Patch.pairsOf n) := by
  rw [Patch.pairsOf]
  split
  · exact h.pure _
  · exact ite (h.pure _) (h.throw _)
  · exact ite (h.pure _) (h.throw _)
  · exact h.throw _

theorem itemsOf (n : Node) : Follows R (Patch.itemsOf ed n) := by
  rw [Patch.itemsOf]
  split
  · exact h.pure _
  · exact ite (h.pure _) (h.throw _)
  · exact ite (h.pure _) (h.throw _)
  · exact h.throw _

/-- The pass over the pairs of a mapping changes those that the new value does not keep. -/
theorem patchPairs (w : Writes ed letter) {patch : Node → Value → Value → Patch Unit}
    (old new : Value) (pairs : List (Nat × Nat))
    (may : ∀ p ∈ pairs, ∀ key, spelledKey? ed p = some key → ¬ KeepsKey old new key →
      AllowsPair ed allowed (ed.node p.1) (ed.node p.2) ∧
        ∀ old new, Follows R (patch (ed.node p.2) old new))
    (pending : List (Value × Value)) :
    Follows R (Patch.patchPairs ed patch old new pending pairs) := by
  induction pairs generalizing pending with
  | nil => exact h.pure _
  | cons p r ih =>
    obtain ⟨k, v⟩ := p
    have rest := ih fun p hp => may p (List.mem_cons_of_mem _ hp)
    have may := may (k, v) List.mem_cons_self
    refine h.chain (h.scalarKey ed k) ?_
    intro key _ _ got
    have spelled := (gives_scalarKey (p := (k, v)) got).1.symm
    cases key with
    | none => exact rest pending
    | some key =>
      refine h.chain (h.ofLookup _) ?_
      intro found _ _ got
      obtain ⟨holds, -⟩ := gives_ofLookup.mp got
      dsimp only
      split
      · next missing =>
        have gone : ¬ KeepsKey old new key := by
          rintro ⟨_, _, -, has, -⟩
          have absent : found = false := by simpa using missing
          rw [Value.held?, holds, absent] at has
          cases has
        refine h.bind (h.report rfl) fun _ => h.bind (h.erase ed ?_) fun _ => rest pending
        exact (may key spelled gone).1.entry
      · next present =>
        have present : found = true := by simpa using present
        refine ite ?_ (rest _)
        refine h.chain (h.ofLookup _) ?_
        intro held? _ _ got
        obtain ⟨was, -⟩ := gives_ofLookup.mp got
        have compare : ∀ held : Value, (∀ w, held? = some w → held = w) → Follows R (do
            let value ← Patch.ofLookup (new.item key)
            if !Value.equal held value then
              Patch.patchPair ed patch (ed.node k) (ed.node v) held value
            Patch.patchPairs ed patch old new (Value.dropKey pending key) r) := by
          intro held same
          refine h.chain (h.ofLookup _) ?_
          intro value _ _ got
          obtain ⟨has, -⟩ := gives_ofLookup.mp got
          split
          · next differs =>
            have changed : ¬ KeepsKey old new key := by
              rintro ⟨w, x, had, has', equal⟩
              rw [was] at had
              rw [same w (Except.ok.inj had)] at differs
              rw [Value.held?, holds, present] at has'
              rw [has] at has'
              cases has'
              rw [equal] at differs
              cases differs
            obtain ⟨allows, inner⟩ := may key spelled changed
            exact h.bind (h.patchPair ed w _ (w.names v) allows inner held value) fun _ => rest _
          · exact rest _
        cases held? with
        | some w =>
          refine h.chain (h.pure w) fun held _ _ got => compare held ?_
          intro w' same
          cases same
          exact (gives_pure.mp got).1.symm
        | none =>
          refine h.bind (h.ofLoad _) fun held => compare held ?_
          intro w same
          cases same

theorem addEntries (w : Writes ed letter) (n : Node)
    (may : allowed (ed.tree.appendPoint n) (ed.tree.appendPoint n)) (old : Value)
    (entries : List (Value × Value)) : Follows R (Patch.addEntries ed n old entries) := by
  induction entries with
  | nil => exact h.pure _
  | cons e r ih =>
    obtain ⟨key, value⟩ := e
    have add : Follows R (do
        Patch.insertAfter ed n (← Patch.dump ed (.dict none [(key, value)]))
        Patch.addEntries ed n old r) :=
      h.chain (h.dump ed _ false) fun _ _ _ dumped =>
        h.bind (h.insertAfter ed w n may (w.of_dump dumped)) fun _ => ih
    refine h.bind (h.ofLookup _) fun held => ite (ite ?_ add) ih
    exact h.bind (h.report rfl) fun _ => add

theorem patchEntries (w : Writes ed letter) {patch : Node → Value → Value → Patch Unit} (n : Node)
    (old new : Value)
    (append : allowed (ed.tree.appendPoint n) (ed.tree.appendPoint n))
    (may : ∀ p ∈ n.pairs, ∀ key, spelledKey? ed p = some key → ¬ KeepsKey old new key →
      AllowsPair ed allowed (ed.node p.1) (ed.node p.2) ∧
        ∀ old new, Follows R (patch (ed.node p.2) old new)) :
    Follows R (Patch.patchEntries ed patch n old new) := by
  refine h.bind (h.ofLookup _) fun entries => h.chain (h.pairsOf n) ?_
  intro pairs _ _ got
  have own := pairs_of_pairsOf got
  subst own
  exact h.bind (h.patchPairs ed w old new _ may entries) fun _ => h.addEntries ed w n append old _

/-- The pass over the entries of a sequence changes those that the new value does not keep. -/
theorem patchItems (w : Writes ed letter) (old new : Value) (column : Int) (position : Nat)
    (nodes : List Node) (named : ∀ n ∈ nodes, Anchored letter n)
    (may : ∀ i n, nodes[i]? = some n → ¬ KeepsItem old new (position + i) →
      AllowsItem ed allowed column n) :
    Follows R (Patch.patchItems ed old new position nodes) := by
  induction nodes generalizing position with
  | nil => exact h.pure _
  | cons n r ih =>
    obtain ⟨first, others⟩ := List.forall_mem_cons.mp named
    have rest := ih (position + 1) others fun i m found changed =>
      may (i + 1) m found (by rwa [Nat.add_assoc, Nat.add_comm 1] at changed)
    refine ite ?_ rest
    refine h.chain (h.ofLookup _) ?_
    intro held _ _ got
    obtain ⟨had, -⟩ := gives_ofLookup.mp got
    refine h.chain (h.ofLookup _) ?_
    intro value _ _ got
    obtain ⟨has, -⟩ := gives_ofLookup.mp got
    split
    · next differs =>
      refine h.bind (h.replaceItem ed w first (may 0 n rfl ?_) value) fun _ => rest
      rintro ⟨w, x, had', has', equal⟩
      rw [Nat.add_zero] at had' has'
      rw [had] at had'
      rw [has] at has'
      cases had'
      cases has'
      rw [equal] at differs
      cases differs
    · exact rest

theorem eraseItems (column : Nat) (nodes : List Node)
    (may : ∀ n ∈ nodes, AllowsItem ed allowed column n) :
    Follows R (Patch.eraseItems ed column nodes) := by
  induction nodes with
  | nil => exact h.pure _
  | cons n r ih =>
    have rest := ih fun m hm => may m (List.mem_cons_of_mem _ hm)
    refine h.bind (h.report rfl) fun _ => h.chain (h.ofPosition _) ?_
    intro dash _ _ found
    obtain ⟨found, -⟩ := gives_ofPosition.mp found
    exact h.bind (h.erase ed ((may n List.mem_cons_self).entry dash found)) fun _ => rest

theorem patchSequence (w : Writes ed letter) (n : Node) (old new : Value)
    (append : allowed (ed.tree.appendPoint n) (ed.tree.appendPoint n))
    (may : ∀ i c, n.items[i]? = some c →
      (KeepsItem old new i → ∀ parts, new.parts = .ok parts → parts.length ≤ i) →
        AllowsItem ed allowed n.content.column (ed.node c)) :
    Follows R (Patch.patchSequence ed n old new) := by
  refine h.chain (h.itemsOf ed n) ?_
  intro nodes _ _ got
  have own := items_of_itemsOf got
  subst own
  refine h.chain (h.ofLookup _) ?_
  intro parts _ _ got
  obtain ⟨size, -⟩ := gives_ofLookup.mp got
  refine h.bind (h.patchItems ed w old new n.content.column 0 _ ?_ ?_) fun _ => ?_
  · intro m hm
    obtain ⟨c, -, rfl⟩ := List.mem_map.mp (List.mem_of_mem_take hm)
    exact w.names c
  · intro i m found changed
    rw [List.getElem?_take, Option.ite_none_right_eq_some, List.getElem?_map,
      Option.map_eq_some_iff] at found
    obtain ⟨-, c, place, rfl⟩ := found
    rw [Nat.zero_add] at changed
    exact may i c place fun keeps => absurd keeps changed
  · refine ite (h.eraseItems ed _ _ ?_) (ite ?_ (h.pure _))
    · intro m hm
      obtain ⟨i, found⟩ := List.mem_iff_getElem?.mp hm
      rw [List.getElem?_drop, List.getElem?_map, Option.map_eq_some_iff] at found
      obtain ⟨c, place, rfl⟩ := found
      refine may _ c place fun _ parts' size' => ?_
      rw [size] at size'
      cases size'
      exact Nat.le_add_right ..
    · refine h.bind (h.ofLookup _) fun _ => h.chain (h.dump ed _ false) fun _ _ _ dumped => ?_
      exact h.insertAfter ed w n append (w.of_dump dumped)

/-- A patch of a node that may be changed with all that is in it. -/
theorem patchAt (w : Writes ed letter) {Q : Node → Prop} (within : AllowsWithin ed allowed Q)
    (depth : Nat) {n : Node} (named : Anchored letter n) (inside : Q n) (old new : Value) :
    Follows R (Patch.patchAt ed depth n old new) := by
  induction depth generalizing n old new with
  | zero => exact h.pure _
  | succ depth ih =>
    have rewrite := h.replaceBlock ed w named (within.whole n inside) new
    have append := within.append n inside
    rw [Patch.patchAt]
    refine ite (h.refuse ..) ?_
    split
    · next flow => exact h.replaceFlow ed w named (within.flow n inside flow) new
    · next block =>
      refine ite rewrite (h.bind (h.dropsMergedKey ed n old new) fun _ => ite rewrite (ite ?_ ?_))
      · refine h.patchEntries ed w n old new append ?_
        intro p hp key spelled _
        refine ⟨within.pair n inside p hp (by rw [spelled]; rfl), ih (w.names p.2) ?_⟩
        exact within.child n inside p.2 (Node.mem_children_of_mem_pairs hp).2
      · refine h.patchSequence ed w n old new append ?_
        intro i c place _
        exact within.item n inside (by simpa using block) c (List.mem_of_getElem? place)

theorem patchNode (w : Writes ed letter) {Q : Node → Prop} (within : AllowsWithin ed allowed Q)
    {n : Node} (named : Anchored letter n) (inside : Q n) (old new : Value) :
    Follows R (Patch.patchNode ed n old new) :=
  h.patchAt ed w within _ named inside old new

end Tolerant

/-! ## Settling -/

namespace Tolerant

variable {R : Session → Session → Prop} {letter : Char → Prop} (ed : Editing)

section

variable {allowed : Int → Int → Prop} (h : Tolerant R allowed letter)
include h

theorem settledValue? (n : Node) : Follows R (Patch.settledValue? ed n) := by
  rw [Patch.settledValue?]
  split
  · exact h.pure _
  · exact h.pure _
  · exact h.throw _

theorem staleEntries (current : Value) (own : List Value) (entries : List (Value × Value)) :
    Follows R (Patch.staleEntries current own entries) := by
  induction entries with
  | nil => exact h.pure _
  | cons e r ih =>
    obtain ⟨key, value⟩ := e
    have rest : ∀ isStale : Bool, Follows R (do
        let more ← Patch.staleEntries current own r
        return if isStale then (key, value) :: more else more) := by
      intro isStale
      exact h.bind ih fun _ => h.pure _
    refine ite (h.bind (h.pure _) rest) ?_
    exact h.bind (h.ofLookup _) fun held => h.bind (h.pure _) rest

theorem addOverrides (w : Writes ed letter) (n : Node)
    (may : allowed (ed.tree.appendPoint n) (ed.tree.appendPoint n)) (entries : List (Value × Value)) :
    Follows R (Patch.addOverrides ed n entries) := by
  induction entries with
  | nil => exact h.pure _
  | cons e r ih =>
    obtain ⟨key, value⟩ := e
    refine h.chain (h.dump ed _ false) fun _ _ _ dumped => ?_
    exact h.bind (h.insertAfter ed w n may (w.of_dump dumped)) fun _ => ih

end

variable (h : Tolerant R Anywhere letter)
include h

theorem replaceWhole (w : Writes ed letter) {n : Node} (named : Anchored letter n) (v : Value)
    (key : Option Node) : Follows R (Patch.replaceWhole ed n v key) := by
  have item : AllowsItem ed Anywhere 0 n :=
    ⟨trivial, fun _ _ _ _ => trivial, fun _ _ _ _ _ => trivial⟩
  refine ite ?_ ?_
  · refine ite (h.chain (h.dump ed v true) fun _ _ _ got => ?_)
      (h.chain (h.ofFragment _) fun _ _ _ got => ?_)
    · exact h.put trivial (w.spelled_anchored named (w.of_dump got))
    · exact h.put trivial (w.spelled_anchored named (w.of_literal got))
  · cases key with
    | some key => exact h.replaceValue ed w key named trivial v
    | none =>
      exact ite (h.replaceItem ed w named item v)
        (ite (h.replaceBlock ed w named trivial v) (h.replacePrimitive ed w named trivial v))

theorem settleAlias (w : Writes ed letter) {n : Node} (named : Anchored letter n)
    (target : Option (Nat × Tag)) (v : Value) (key : Option Node) :
    Follows R (Patch.settleAlias ed n target v key) := by
  have write : ∀ keeps : Bool, Follows R (do
      if !keeps then
        Patch.note (.expandingAlias n.start)
        Patch.replaceWhole ed n v key) := by
    intro keeps
    refine ite ?_ (h.pure _)
    exact h.bind (h.report rfl) fun _ => h.replaceWhole ed w named v key
  refine ite ?_ (h.bind (h.pure _) write)
  refine h.bind (h.settledValue? ed n) ?_
  intro w
  cases w with
  | none => exact h.bind (h.pure _) write
  | some w => exact h.bind (h.pure _) write

theorem planMerges (w : Writes ed letter) {n : Node} (named : Anchored letter n) (v : Value)
    (entries : List (Value × Value)) (key : Option Node) :
    Follows R (Patch.planMerges ed n v entries key) := by
  have rewrite : Follows R (do Patch.replaceWhole ed n v key; return MergePlan.finished) :=
    h.bind (h.replaceWhole ed w named v key) fun _ => h.pure _
  refine ite (h.pure _) (h.bind (h.settledValue? ed n) fun current => ?_)
  cases current with
  | none => exact ite rewrite (h.pure _)
  | some current =>
    refine h.bind (h.ownKeys ed n) fun own => h.bind (h.dropsMergedKey ed n current v) fun _ => ?_
    refine ite rewrite (h.bind (h.staleEntries current own entries) fun stale => ?_)
    exact ite rewrite (h.pure _)

theorem settlePairs {settle : Node → Value → Option Node → Patch Unit}
    (inner : ∀ i v key, Follows R (settle (ed.node i) v key)) (entries : List (Value × Value))
    (pairs : List (Nat × Nat)) : Follows R (Patch.settlePairs ed settle entries pairs) := by
  induction pairs with
  | nil => exact h.pure _
  | cons p r ih =>
    obtain ⟨k, v⟩ := p
    refine h.bind (h.scalarKey ed k) ?_
    intro key
    dsimp only
    split
    · split
      · exact h.bind (inner _ _ _) fun _ => ih
      · exact ih
    · exact ih

theorem settleItems {settle : Node → Value → Option Node → Patch Unit}
    (inner : ∀ i v key, Follows R (settle (ed.node i) v key)) (items : List Nat)
    (values : List Value) : Follows R (Patch.settleItems ed settle items values) := by
  induction items generalizing values with
  | nil => exact h.pure _
  | cons i r ih =>
    cases values with
    | nil => exact h.pure _
    | cons v values => exact h.bind (inner _ v none) fun _ => ih values

theorem settleAt (w : Writes ed letter) (depth : Nat) {n : Node} (named : Anchored letter n)
    (v : Value) (key : Option Node) : Follows R (Patch.settleAt ed depth n v key) := by
  induction depth generalizing n v key with
  | zero => exact h.pure _
  | succ depth ih =>
    have inner := fun i => ih (w.names i)
    unfold Patch.settleAt
    split
    · exact h.settleAlias ed w named _ _ key
    · refine h.bind (h.planMerges ed w named _ _ key) ?_
      intro plan
      cases plan with
      | finished => exact h.pure _
      | override stale =>
        exact h.bind (h.settlePairs ed inner _ _) fun _ => h.addOverrides ed w n trivial stale
    · exact h.settleItems ed inner _ _
    · exact h.pure _

theorem settleRound (w : Writes ed letter) (v : Value) : Follows R (Patch.settleRound ed v) := by
  rw [Patch.settleRound]
  split
  · next root here =>
    have same : ed.node 0 = root := congrArg (Option.getD · default) here
    exact h.settleAt ed w _ (same ▸ w.names 0) v none
  · exact h.pure _

end Tolerant

end YamlEdit.Patch
