import YamlEdit.Proofs.Event.Order
import YamlEdit.Proofs.Tree.Brackets
import YamlEdit.Proofs.Tree.Span

/-!
# What nodes have from their tokens

A node is made or opened by one event, and the end of a collection has another. What the two events
tell of the tokens is kept of the node: where it starts and begins, from which mark the editor counted
to get there, and with which token it ends.

A builder goes along with the events. A collection that is open has begun before the position of the
events, and whether it has a bracket of its own to end with is what the events tell of it.
-/

namespace YamlEdit

/-- Whether a kind of token is a block scalar. -/
def Token.Kind.isBlockScalar : Token.Kind → Bool
  | .scalar _ quoting => quoting.isBlock
  | _ => false

/-- A span whose last character shows, and is in a token that is no block scalar: so it is in no
comment. -/
def Renders (s : Text) (start stop : Nat) : Prop :=
  ∃ t ∈ (TokenFeed.ofText s).items, t.kind.isBlockScalar = false ∧ start ≤ t.start.index ∧
    t.start.index < t.stop.index ∧ t.stop.index = stop ∧ ∃ c ∈ s[stop - 1]?, isInk c = true

/-! ## Nodes -/

namespace Node

/-- Whether a node is a block scalar. -/
def isBlockScalar (n : Node) : Bool :=
  match n.body with
  | .scalar _ _ quoting => quoting.isBlock
  | _ => false

/-- Whether a node is a pair in brackets, a mapping in flow style that does not begin with a brace. -/
def isPair (s : Text) (n : Node) : Bool :=
  n.kind == .mapping && n.isFlow && !(TokenFeed.ofText s).items.any fun t =>
    t.kind == .flowMappingStart && t.start.index == n.content.index

/-- From where on the line and the column are counted of the place where a node begins: a scalar's from
its start, and those of a collection from the end of its first token. -/
def contentFrom (n : Node) : Nat :=
  match n.body with
  | .sequence _ .flow _ | .sequence _ .bare _ | .mapping _ .flow _ => n.content.index + 1
  | .sequence .. | .mapping .. => n.content.index
  | _ => n.start.index

/-- What is known of a node from the event that makes or opens it. -/
structure Begins (s : Text) (n : Node) : Prop where
  start : n.start.In s
  content : ∃ near : Mark, near.In s ∧ near.index = n.contentFrom ∧
    n.content = Span.markAt s n.content.index near
  behind : n.start.index ≤ n.content.index ∨
    n.isPair s = true ∧ n.content.index + 1 = n.start.index
  whole : n.isPair s = false →
    n.content.index = n.contentFrom ∨ Text.splitsBreak s n.content.index = false

/-- With what the text of a node ends. -/
def Ends (s : Text) (n : Node) : Prop :=
  match n.body with
  | .scalar _ _ quoting =>
    if quoting.isBlock then
      n.start.index < n.stop.index ∧ ∃ c ∈ s[n.stop.index - 1]?, Span.isBlank c = false
    else Renders s n.start.index n.stop.index ∨ quoting = .plain ∧ n.start = n.stop
  | .aliasOf .. => Renders s n.start.index n.stop.index
  | _ => n.isFlow = true → n.isPair s = false → Renders s n.start.index n.stop.index

/-- The token that a block scalar has its end from: up to its end there are only blanks. -/
structure Shortens (s : Text) (n : Node) (t : Token) : Prop where
  kind : t.kind.isBlockScalar = true
  stop : t.stop.In s
  begins : n.start.index ≤ t.start.index
  ends : n.stop.index ≤ t.stop.index
  blank : ∀ c ∈ Text.slice s n.stop.index t.stop.index, Span.isBlank c = true
  found : n.stop = Span.markAt s n.stop.index t.stop

/-- What is known of a node behind its last event. -/
structure Ended (s : Text) (n : Node) : Prop where
  begins : n.Begins s
  inside : n.content.index ≤ n.stop.index
  stop : n.isBlockScalar = false → n.stop.In s
  shortens : n.isBlockScalar = true → ∃ t ∈ (TokenFeed.ofText s).items, n.Shortens s t
  ends : n.Ends s

theorem isPair_begun (s : Text) (n : Node) : n.begun.isPair s = n.isPair s := by
  obtain ⟨index, parent, anchor, start, stop, content, body⟩ := n
  cases body <;> rfl

theorem kind_begun (n : Node) : n.begun.kind = n.kind := by
  obtain ⟨index, parent, anchor, start, stop, content, body⟩ := n
  cases body <;> rfl

theorem contentFrom_begun (n : Node) : n.begun.contentFrom = n.contentFrom := by
  obtain ⟨index, parent, anchor, start, stop, content, body⟩ := n
  cases body with
  | scalar | aliasOf => rfl
  | sequence tag frame | mapping tag frame => cases frame <;> rfl

theorem Begins.grow {s : Text} {n m : Node} (h : n.Begins s) (same : m.begun = n.begun) :
    m.Begins s := by
  have start : m.start = n.start := (congrArg Node.start same :)
  have content : m.content = n.content := (congrArg Node.content same :)
  have from_ : m.contentFrom = n.contentFrom := by
    rw [← m.contentFrom_begun, same, n.contentFrom_begun]
  have pair : m.isPair s = n.isPair s := by rw [← m.isPair_begun, same, n.isPair_begun]
  refine ⟨?_, ?_, ?_, ?_⟩
  · rw [start]
    exact h.start
  · rw [content, from_]
    exact h.content
  · rw [start, content, pair]
    exact h.behind
  · rw [pair, content, from_]
    exact h.whole

end Node

section

variable {s : Text} {e : Event} {n : Node} {t : Token} {position : Nat} {before after : List Bool}

/-- A span that a token ends with a character that shows. -/
theorem renders_of_token (ht : t ∈ (TokenFeed.ofText s).items)
    (shows : Inked (Text.slice s t.start.index t.stop.index)) (other : t.kind.isBlockScalar = false)
    {start : Nat} (le : start ≤ t.start.index) : Renders s start t.stop.index := by
  have lies := (TokenFeed.orderly_ofText s).lies t ht
  obtain ⟨c, last, ink⟩ := shows
  have some_ : t.start.index < t.stop.index := by
    rcases Nat.lt_or_eq_of_le lies.le with less | same
    · exact less
    · rw [same, slice_self] at last
      cases last
  rw [Text.getLast?_slice lies.stop.index some_] at last
  exact ⟨t, ht, other, le, some_, rfl, c, last, ink⟩

theorem Renders.mono {start stop earlier : Nat} (h : Renders s start stop) (le : earlier ≤ start) :
    Renders s earlier stop := by
  obtain ⟨t, ht, other, begins, rest⟩ := h
  exact ⟨t, ht, other, Nat.le_trans le begins, rest⟩

/-! ### What opens a collection -/

/-- A collection that begins with the single character of a token. -/
theorem begins_of_char (ht : t ∈ (TokenFeed.ofText s).items) {c : Char}
    (word : Text.slice s t.start.index t.stop.index = [c]) (feed : c ≠ '\n')
    (le : n.start.index ≤ t.start.index) (start : n.start.In s)
    (content : n.content = Span.markAt s (t.stop.index - 1) t.stop)
    (from_ : n.contentFrom = n.content.index + 1) :
    n.Begins s ∧ n.content.index + 1 = t.stop.index := by
  have lies := (TokenFeed.orderly_ofText s).lies t ht
  obtain ⟨stop, here⟩ := Text.of_slice_eq_singleton lies.stop.index lies.le word
  have index : n.content.index = t.start.index := by
    rw [content, Span.index_markAt, stop, Nat.add_sub_cancel]
  refine ⟨⟨start, ⟨t.stop, lies.stop, by omega, ?_⟩, .inl (by omega), fun _ => .inr ?_⟩, by omega⟩
  · rw [index, content, stop, Nat.add_sub_cancel]
  · rw [index]
    exact Span.splitsBreak_of_ne here feed

/-- A collection that begins where its first token does. -/
theorem begins_of_stop (le : n.start.index ≤ e.stop.index) (start : n.start.In s)
    (stop : e.stop.In s) (content : n.content = Span.markAt s e.stop.index e.stop)
    (from_ : n.contentFrom = n.content.index) : n.Begins s ∧ n.content.index = e.stop.index := by
  have same : n.content = e.stop := by rw [content, Span.markAt, if_pos rfl]
  refine ⟨⟨start, ⟨e.stop, stop, ?_, ?_⟩, .inl (by rw [same]; exact le), fun _ => .inl from_.symm⟩,
    by rw [same]⟩
  · rw [from_, same]
  · rw [same, Span.markAt, if_pos rfl]

/-- What is known of a collection that an event opens, with a bracket of its own to end with or
without. -/
structure Opens (s : Text) (e : Event) (before after : List Bool) (n : Node) : Prop where
  begins : n.Begins s
  reached : n.content.index ≤ e.stop.index
  closer : ∃ closed, after = closed :: before ∧ (closed = true → 0 < e.stop.index) ∧
    (n.isFlow = true → closed = true ∨ n.isPair s = true)

theorem opens_sequence (lies : e.Lies s position)
    (tells : e.Tells (TokenFeed.ofText s).items before after) {anchor : Option Text} {tag : Tag}
    {frame : Frame} (kind : e.kind = .sequenceStart anchor tag frame) (start : n.start = e.start)
    (content : n.content =
      Span.markAt s (Span.collectionContent s (frame == .flow) e.stop.index) e.stop)
    {items : List Nat} (body : n.body = .sequence tag frame items) : Opens s e before after n := by
  have inside : n.start.In s := start ▸ lies.start
  rw [Event.Tells, kind] at tells
  cases frame with
  | flow =>
    obtain ⟨rfl, t, ht, bracket, le, stop⟩ := tells
    have word := ((TokenFeed.shown_ofText s).1 t ht).shows
    rw [bracket] at word
    rw [stop] at content
    obtain ⟨begins, index⟩ := begins_of_char ht word (by decide) (start ▸ le) inside content
      (by rw [Node.contentFrom, body])
    rw [← stop] at index
    exact ⟨begins, by omega, true, rfl, fun _ => by omega, fun _ => .inl rfl⟩
  | block =>
    obtain ⟨rfl, t, ht, first, le, stop⟩ := tells
    have lies' := (TokenFeed.orderly_ofText s).lies t ht
    have place : Span.collectionContent s (Frame.block == .flow) e.stop.index = e.stop.index :=
      stop ▸ Tree.Strung.content_of_start lies' first
    rw [place] at content
    obtain ⟨begins, index⟩ := begins_of_stop (by rw [start, stop]; exact le) inside lies.stop content
      (by rw [Node.contentFrom, body])
    refine ⟨begins, Nat.le_of_eq index, false, rfl, nofun, fun flow => ?_⟩
    rw [Node.isFlow, body] at flow
    cases flow
  | bare =>
    obtain ⟨rfl, t, ht, first, le, stop⟩ := tells
    have word := ((TokenFeed.shown_ofText s).1 t ht).shows
    have lies' := (TokenFeed.orderly_ofText s).lies t ht
    obtain ⟨r, -, -, behind⟩ := lies'.dash first
    rw [first] at word
    have place : Span.collectionContent s (Frame.bare == .flow) e.stop.index = t.stop.index - 1 := by
      rw [behind, Nat.add_sub_cancel]
      exact stop ▸ Tree.Strung.content_of_dash lies' first
    rw [place, stop] at content
    obtain ⟨begins, index⟩ := begins_of_char ht word (by decide) (start ▸ le) inside content
      (by rw [Node.contentFrom, body])
    rw [← stop] at index
    refine ⟨begins, by omega, false, rfl, nofun, fun flow => ?_⟩
    rw [Node.isFlow, body] at flow
    cases flow

/-- A token that is written as a single character. -/
theorem stop_of_single (ht : t ∈ (TokenFeed.ofText s).items) {c : Char}
    (single : ∀ w, t.kind.Shows w → w = [c]) : t.stop.index = t.start.index + 1 := by
  have lies := (TokenFeed.orderly_ofText s).lies t ht
  have word := single _ ((TokenFeed.shown_ofText s).1 t ht).shows
  exact (Text.of_slice_eq_singleton lies.stop.index lies.le word).1

/-- No brace comes right before the key of a pair in brackets, since a bracket or a comma does. -/
theorem isPair_of_key {front rest : List Token} {sign key : Token}
    (cut : (TokenFeed.ofText s).items = front ++ sign :: key :: rest)
    (between : sign.kind = .flowSequenceStart ∨ sign.kind = .flowEntry) (kind : key.kind = .key)
    (mapping : n.kind = .mapping) (flow : n.isFlow = true)
    (index : n.content.index + 1 = key.stop.index) : n.isPair s = true := by
  have orderly := TokenFeed.orderly_ofText s
  have bracket : sign.stop.index = sign.start.index + 1 := by
    have hs : sign ∈ (TokenFeed.ofText s).items := by simp [cut]
    rcases between with kind | kind
    · exact stop_of_single (c := '[') hs (by rw [kind]; exact fun _ => id)
    · exact stop_of_single (c := ',') hs (by rw [kind]; exact fun _ => id)
  have range := (orderly.lies key (by simp [cut])).le
  have order := orderly.pairwise
  rw [cut, List.pairwise_append, List.pairwise_cons, List.pairwise_cons] at order
  obtain ⟨-, ⟨behind, later, -⟩, before⟩ := order
  have gap := behind key List.mem_cons_self
  have none : ∀ x ∈ (TokenFeed.ofText s).items, x.kind = .flowMappingStart →
      x.start.index ≠ n.content.index := by
    intro x hx brace same
    have single := stop_of_single (c := '\x7b') hx (by rw [brace]; exact fun _ => id)
    rw [cut, List.mem_append, List.mem_cons, List.mem_cons] at hx
    rcases hx with hx | rfl | rfl | hx
    · have apart := before x hx sign List.mem_cons_self
      omega
    · rcases between with kind | kind <;> cases brace.symm.trans kind
    · cases brace.symm.trans kind
    · have apart := later x hx
      omega
  simpa [Node.isPair, mapping, flow] using none

theorem opens_mapping (lies : e.Lies s position)
    (tells : e.Tells (TokenFeed.ofText s).items before after) (deep : true ∈ before → 0 < position)
    {anchor : Option Text} {tag : Tag} {frame : Frame} (kind : e.kind = .mappingStart anchor tag frame)
    (start : n.start = e.start)
    (content : n.content =
      Span.markAt s (Span.collectionContent s (frame == .flow) e.stop.index) e.stop)
    {pairs : List (Nat × Nat)} (body : n.body = .mapping tag frame pairs) :
    Opens s e before after n := by
  have inside : n.start.In s := start ▸ lies.start
  have block (unclosed : after = false :: before)
      (first : e.StopsBefore (TokenFeed.ofText s).items .blockMappingStart)
      (place : (frame == .flow) = false) (from_ : n.contentFrom = n.content.index)
      (other : n.isFlow = false) : Opens s e before after n := by
    obtain ⟨t, ht, first, le, stop⟩ := first
    have apart := ((TokenFeed.shown_ofText s).1 t ht).apart (by rw [first]; rfl)
    rw [place, Span.collectionContent, if_neg Bool.false_ne_true,
      if_neg fun both => apart (stop ▸ both.1)] at content
    obtain ⟨begins, index⟩ := begins_of_stop (by rw [start, stop]; exact le) inside lies.stop content
      from_
    refine ⟨begins, Nat.le_of_eq index, false, unclosed, (absurd · Bool.false_ne_true), fun flow => ?_⟩
    rw [other] at flow
    cases flow
  rw [Event.Tells, kind] at tells
  cases frame with
  | block | bare =>
    exact block tells.1 tells.2 rfl (by rw [Node.contentFrom, body]) (by rw [Node.isFlow, body]; rfl)
  | flow =>
    have isFlow : n.isFlow = true := by rw [Node.isFlow, body]; rfl
    have isMapping : n.kind = .mapping := by rw [Node.kind, body]
    have from_ : n.contentFrom = n.content.index + 1 := by rw [Node.contentFrom, body]
    have place : Span.collectionContent s (Frame.flow == .flow) e.stop.index = e.stop.index - 1 := rfl
    rw [place] at content
    rcases tells with ⟨rfl, t, ht, brace, le, stop⟩ |
        ⟨around, rfl, front, sign, t, rest, cut, between, key, starts, stop⟩
    · have word := ((TokenFeed.shown_ofText s).1 t ht).shows
      rw [brace] at word
      rw [stop] at content
      obtain ⟨begins, index⟩ := begins_of_char ht word (by decide) (start ▸ le) inside content from_
      rw [← stop] at index
      exact ⟨begins, by omega, true, rfl, fun _ => by omega, fun _ => .inl rfl⟩
    · have ht : t ∈ (TokenFeed.ofText s).items := by simp [cut]
      have lies' := (TokenFeed.orderly_ofText s).lies t ht
      have pair := isPair_of_key cut between key isMapping isFlow
      have word := ((TokenFeed.shown_ofText s).1 t ht).shows
      rw [key] at word
      rw [stop] at content
      rcases word with none | question
      · -- The key has no question mark, so the pair is said to begin with what is before it.
        have empty := Text.eq_of_slice_eq_nil lies'.stop.index lies'.le none
        have some_ := deep (List.mem_of_mem_head? around)
        have behind := lies.begins
        rw [starts] at start behind
        have index : n.content.index + 1 = t.stop.index := by
          rw [content, Span.index_markAt]
          omega
        have pair := pair index
        refine ⟨⟨inside, ⟨t.stop, lies'.stop, ?_, ?_⟩, .inr ⟨pair, ?_⟩, fun other => ?_⟩, ?_, false, rfl,
          (absurd · Bool.false_ne_true), fun _ => .inr pair⟩
        · rw [from_, index]
        · rw [content, Span.index_markAt]
        · rw [start, index, empty]
        · rw [pair] at other
          cases other
        · rw [stop]
          omega
      · obtain ⟨begins, index⟩ := begins_of_char ht question (by decide)
          (Nat.le_of_eq (congrArg Mark.index (start.trans starts))) inside content from_
        have pair := pair index
        rw [← stop] at index
        exact ⟨begins, by omega, false, rfl, (absurd · Bool.false_ne_true), fun _ => .inr pair⟩

/-! ### What a scalar and an alias are made of -/

/-- What a token is written as that ends a scalar. -/
theorem renders_of_scalar {quoting : Quoting} (other : quoting.isBlock = false)
    (stops : e.StopsWith (TokenFeed.ofText s).items (·.EndsScalar quoting)) :
    Renders s e.start.index e.stop.index := by
  obtain ⟨t, ht, ends, le, stop⟩ := stops
  have word := ((TokenFeed.shown_ofText s).1 t ht).shows
  rw [stop]
  rcases ends with ⟨text, kind⟩ | ⟨rfl, property⟩
  · rw [kind, Token.Kind.Shows, other] at word
    exact renders_of_token ht word (by rw [kind]; exact other) le
  · cases kind : t.kind <;> rw [kind] at property word <;>
      first
        | exact renders_of_token ht word (by rw [kind]; rfl) le
        | cases property

/-- The text of a block scalar starts with its sign, so it is not all blank. -/
theorem shortens_of_block {quoting : Quoting} (block : quoting.isBlock = true)
    (stops : e.StopsWith (TokenFeed.ofText s).items (·.EndsScalar quoting)) :
    (∃ t ∈ (TokenFeed.ofText s).items, t.kind.isBlockScalar = true ∧
      e.start.index ≤ t.start.index ∧ e.stop = t.stop) ∧
    ∃ c ∈ Text.slice s e.start.index e.stop.index, Span.isBlank c = false := by
  obtain ⟨t, ht, ends, le, stop⟩ := stops
  have lies' := (TokenFeed.orderly_ofText s).lies t ht
  have word := ((TokenFeed.shown_ofText s).1 t ht).shows
  rcases ends with ⟨text, kind⟩ | ⟨rfl, -⟩
  · refine ⟨⟨t, ht, by rw [kind]; exact block, le, stop⟩, ?_⟩
    rw [kind, Token.Kind.Shows, block] at word
    obtain ⟨c, first, ink⟩ := word
    refine ⟨c, ?_, ?_⟩
    · rw [stop, ← slice_append s le lies'.le]
      exact List.mem_append_right _ (List.mem_of_mem_head? first)
    · obtain ⟨line, space, tab⟩ := isInk_iff.mp ink
      simp only [Scan.isBreak, Bool.or_eq_false_iff, beq_eq_false_iff_ne] at line
      simp [Span.isBlank, space, tab, line]
  · cases block

theorem ended_scalar (lies : e.Lies s position)
    (tells : e.Tells (TokenFeed.ofText s).items before after) {anchor : Option Text} {tag : Tag}
    {text : Text} {quoting : Quoting} (kind : e.kind = .scalar anchor tag text quoting) {stop : Nat}
    (ends : stop = if quoting.isBlock then Span.withoutBlanks s e.start.index e.stop.index
      else e.stop.index)
    (starts : n.start = e.start) (stops : n.stop = Span.markAt s stop e.stop)
    (content : n.content = Span.markAt s (Span.scalarContent s e.start.index stop) e.start)
    (body : n.body = .scalar tag text quoting) : n.Ended s := by
  rw [Event.Tells, kind] at tells
  obtain ⟨-, tells⟩ := tells
  have index : n.stop.index = stop := by rw [stops, Span.index_markAt]
  have range : e.start.index ≤ stop ∧ stop ≤ e.stop.index := by
    rw [ends]
    split
    · exact ⟨Span.le_withoutBlanks .., Span.withoutBlanks_le lies.le⟩
    · exact ⟨lies.le, Nat.le_refl _⟩
  have within : stop ≤ s.length := Nat.le_trans range.2 lies.stop.index
  have place : n.content.index = Span.scalarContent s e.start.index stop := by
    rw [content, Span.index_markAt]
  have from_ : n.contentFrom = e.start.index := by rw [Node.contentFrom, body, starts]
  have isBlock : n.isBlockScalar = quoting.isBlock := by rw [Node.isBlockScalar, body]
  have whole : quoting.isBlock = false → n.stop = e.stop := by
    intro other
    rw [stops, ends, other, if_neg Bool.false_ne_true, Span.markAt, if_pos rfl]
  have block (isBlock : quoting.isBlock = true) := shortens_of_block isBlock
    (tells.resolve_right fun empty => by rw [empty.1] at isBlock; cases isBlock)
  -- Before the end of a scalar with some text there is no carriage return.
  have last : n.Ends s ∧ (e.start.index < stop → ∃ c ∈ s[stop - 1]?, c ≠ '\r') := by
    rw [Node.Ends, body, starts, index]
    dsimp only
    split
    · next isBlock =>
      obtain ⟨-, c, hc, shows⟩ := block isBlock
      rw [isBlock, if_pos rfl] at ends
      obtain ⟨some_, d, hd, other⟩ := Span.withoutBlanks_spec lies.stop.index hc shows
      rw [← ends] at some_ hd
      refine ⟨⟨some_, d, hd, other⟩, fun _ => ⟨d, hd, ?_⟩⟩
      rintro rfl
      cases other
    · next other =>
      have other : quoting.isBlock = false := by simpa using other
      rw [other, if_neg Bool.false_ne_true] at ends
      rw [whole other, ends]
      rcases tells with stops | ⟨plain, same⟩
      · have renders := renders_of_scalar other stops
        refine ⟨.inl renders, fun _ => ?_⟩
        obtain ⟨t, -, -, -, -, -, c, hc, ink⟩ := renders
        refine ⟨c, hc, ?_⟩
        rintro rfl
        cases ink
      · refine ⟨.inr ⟨plain, same⟩, fun some_ => ?_⟩
        rw [same] at some_
        exact absurd some_ (Nat.lt_irrefl _)
  refine ⟨⟨starts ▸ lies.start, ⟨e.start, lies.start, from_.symm, ?_⟩, .inl ?_, fun _ => ?_⟩, ?_, ?_, ?_,
    last.1⟩
  · rw [place, content]
  · rw [starts, place]
    exact Span.le_scalarContent ..
  · rw [from_, place]
    rcases Span.scalarContent_cases within range.1 with same | same | ⟨c, hc, shows⟩
    · exact .inl same
    · rcases Nat.eq_or_lt_of_le range.1 with empty | some_
      · exact .inl (same.trans empty.symm)
      · obtain ⟨c, hc, other⟩ := last.2 some_
        refine .inr ?_
        rw [same]
        exact Span.splitsBreak_of_before hc other
    · refine .inr (Span.splitsBreak_of_ne hc ?_)
      rintro rfl
      cases shows
  · rw [place, index]
    exact Span.scalarContent_le range.1
  · rw [isBlock]
    exact fun other => whole other ▸ lies.stop
  · rw [isBlock]
    intro isBlock
    obtain ⟨⟨t, ht, kind, le, same⟩, -⟩ := block isBlock
    refine ⟨t, ht, kind, same ▸ lies.stop, starts ▸ le, by rw [index, ← same]; exact range.2, ?_, ?_⟩
    · rw [index, ends, isBlock, if_pos rfl, ← same]
      exact Span.isBlank_of_withoutBlanks s _ _
    · rw [index, ← same, stops]

theorem ended_alias (lies : e.Lies s position)
    (tells : e.Tells (TokenFeed.ofText s).items before after) {name : Text}
    (kind : e.kind = .aliasOf name) (starts : n.start = e.start) (stops : n.stop = e.stop)
    (content : n.content = e.start) {target : Option (Nat × Tag)}
    (body : n.body = .aliasOf name target) : n.Ended s := by
  rw [Event.Tells, kind] at tells
  obtain ⟨-, t, ht, alias_, le, stop⟩ := tells
  have word := ((TokenFeed.shown_ofText s).1 t ht).shows
  rw [alias_] at word
  have from_ : n.contentFrom = n.content.index := by rw [Node.contentFrom, body, starts, content]
  refine ⟨⟨starts ▸ lies.start, ⟨e.start, lies.start, ?_, ?_⟩, .inl ?_, fun _ => .inl from_.symm⟩, ?_,
    fun _ => stops ▸ lies.stop, fun block => ?_, ?_⟩
  · rw [from_, content]
  · rw [content, Span.markAt, if_pos rfl]
  · rw [starts, content]
  · rw [content, stops]
    exact lies.le
  · rw [Node.isBlockScalar, body] at block
    cases block
  · rw [Node.Ends, body, starts, stops, stop]
    exact renders_of_token ht word (by rw [alias_]; rfl) le

/-- What is known of a collection behind its end. -/
theorem ended_of_closed {m : Node} (lies : e.Lies s position) (begins : n.Begins s)
    (reached : n.content.index ≤ position) (kind : n.kind = .sequence ∨ n.kind = .mapping)
    {closed : Bool} (flow : n.isFlow = true → closed = true ∨ n.isPair s = true)
    (bracket : closed = true → e.StopsWith (TokenFeed.ofText s).items fun k =>
      k = .flowSequenceEnd ∨ k = .flowMappingEnd)
    (same : m.begun = n.begun) (stop : m.stop = e.stop) : m.Ended s := by
  have content : m.content = n.content := (congrArg Node.content same :)
  have start : m.start = n.start := (congrArg Node.start same :)
  have kind : m.kind = .sequence ∨ m.kind = .mapping := by rwa [← m.kind_begun, same, n.kind_begun]
  have behind := lies.begins
  have renders : m.isFlow = true → m.isPair s = false →
      Renders s m.start.index m.stop.index := by
    intro isFlow other
    rw [← m.isFlow_begun, same, n.isFlow_begun] at isFlow
    rw [← m.isPair_begun, same, n.isPair_begun] at other
    obtain ⟨t, ht, ends, le, same⟩ := bracket ((flow isFlow).resolve_right (by simp [other]))
    have before := begins.behind.resolve_right fun pair => by simp [other] at pair
    have word := ((TokenFeed.shown_ofText s).1 t ht).shows
    rw [start, stop, same]
    rcases ends with kind | kind <;> rw [kind, Token.Kind.Shows] at word
    · exact renders_of_token ht (word ▸ inked_concat [] rfl) (by rw [kind]; rfl) (by omega)
    · exact renders_of_token ht (word ▸ inked_concat [] rfl) (by rw [kind]; rfl) (by omega)
  refine ⟨begins.grow same, ?_, fun _ => stop ▸ lies.stop, fun block => ?_, ?_⟩
  · have le := lies.le
    rw [content, stop]
    omega
  · rw [Node.isBlockScalar] at block
    rw [Node.kind] at kind
    split at block
    · next body =>
      rw [body] at kind
      rcases kind with wrong | wrong <;> cases wrong
    · cases block
  · rw [Node.Ends]
    rw [Node.kind] at kind
    split
    · next body =>
      rw [body] at kind
      rcases kind with wrong | wrong <;> cases wrong
    · next body =>
      rw [body] at kind
      rcases kind with wrong | wrong <;> cases wrong
    · exact renders

end

/-! ## Building -/

namespace Tree

/-- An open collection that has begun before a position, with a bracket of its own to end with or
without. -/
def BegunAt (s : Text) (nodes : Array Node) (position : Nat) (o : Open) (closed : Bool) : Prop :=
  ∃ n, nodes[o.index]? = some n ∧ n.Begins s ∧ n.content.index ≤ position ∧
    (n.kind = .sequence ∨ n.kind = .mapping) ∧
    (n.isFlow = true → closed = true ∨ n.isPair s = true)

theorem BegunAt.grow {s : Text} {nodes more : Array Node} {position later : Nat} {o : Open}
    {closed : Bool} (h : BegunAt s nodes position o closed) (grown : Grows nodes more)
    (further : position ≤ later) : BegunAt s more later o closed := by
  obtain ⟨n, found, begins, reached, kind, flow⟩ := h
  obtain ⟨m, known, same⟩ := grown.node found
  have content : m.content = n.content := (congrArg Node.content same :)
  refine ⟨m, known, begins.grow same, ?_, ?_, ?_⟩
  · rw [content]
    exact Nat.le_trans reached further
  · rwa [← m.kind_begun, same, n.kind_begun]
  · rwa [← m.isFlow_begun, same, n.isFlow_begun, ← m.isPair_begun, same, n.isPair_begun]

/-- A node starts where the node around it has begun. -/
def Follows (nodes : Array Node) (n : Node) : Prop :=
  ∀ p, n.parent = some p → ∃ q, nodes[p]? = some q ∧ q.content.index ≤ n.start.index

theorem Follows.grow {nodes more : Array Node} {n m : Node} (h : Follows nodes n)
    (grown : Grows nodes more) (same : m.begun = n.begun) : Follows more m := by
  intro p parent
  obtain ⟨q, found, le⟩ := h p ((congrArg Node.parent same :).symm.trans parent)
  obtain ⟨q', known, same'⟩ := grown.node found
  have content : q'.content = q.content := (congrArg Node.content same' :)
  have start : m.start = n.start := (congrArg Node.start same :)
  exact ⟨q', known, by rw [content, start]; exact le⟩

/-- A builder behind events that end at a position. Nodes that are not open have ended. -/
structure Derived (s : Text) (b : Builder) (position : Nat) (open_ : List Bool) : Prop where
  text : b.text = s
  ended : ∀ (i : Nat) n, b.nodes[i]? = some n → i ∈ b.stack.map (·.index) ∨ n.Ended s
  follows : ∀ (i : Nat) n, b.nodes[i]? = some n → Follows b.nodes n
  stack : List.Forall₂ (BegunAt s b.nodes position) b.stack open_
  deep : true ∈ open_ → 0 < position

namespace Derived

variable {s : Text} {b b' : Builder} {position later : Nat} {open_ after : List Bool} {e : Event}

theorem mono (h : Derived s b position open_) (further : position ≤ later) :
    Derived s b later open_ :=
  { h with
    stack := h.stack.imp fun _ _ begun => begun.grow (fun _ _ => rfl) further
    deep := fun some_ => Nat.lt_of_lt_of_le (h.deep some_) further }

theorem index_addChild (c : Nat) (stack : List Open) :
    (Builder.addChild c stack).map (·.index) = stack.map (·.index) := by
  cases stack <;> rfl

/-- What adding a node leaves: only of the node itself it is to be said that it is open or has
ended. -/
theorem add (h : Derived s b position open_) (anchor : Option Text) (start stop content : Mark)
    (body : Node.Body) (le : position ≤ start.index) :
    let added := b.add anchor start stop content body
    (∀ (i : Nat) n, added.nodes[i]? = some n → i = b.nodes.size ∧
      n = ⟨b.nodes.size, b.stack.head?.map (·.index), anchor, start, stop, content, body⟩ ∨
        i ∈ added.stack.map (·.index) ∨ n.Ended s) ∧
    (∀ (i : Nat) n, added.nodes[i]? = some n → Follows added.nodes n) ∧
    List.Forall₂ (BegunAt s added.nodes position) added.stack open_ := by
  intro added
  have grown : Grows b.nodes added.nodes := .push b.nodes _
  have stack : List.Forall₂ (BegunAt s added.nodes position) added.stack open_ := by
    have stack := h.stack
    show List.Forall₂ _ (Builder.addChild b.nodes.size b.stack) _
    cases rest : b.stack with
    | nil =>
      rw [rest] at stack
      cases stack
      exact .nil
    | cons o r =>
      rw [rest] at stack
      cases stack with
      | cons first others =>
        exact .cons (first.grow grown (Nat.le_refl _))
          (others.imp fun _ _ begun => begun.grow grown (Nat.le_refl _))
  refine ⟨fun i n found => ?_, fun i n found => ?_, stack⟩
  · have found : (b.nodes.push _)[i]? = some n := found
    rw [Array.getElem?_push] at found
    split at found
    · next last =>
      cases found
      exact .inl ⟨last, rfl⟩
    · refine .inr ?_
      show i ∈ (Builder.addChild b.nodes.size b.stack).map (·.index) ∨ _
      rw [index_addChild]
      exact h.ended i n found
  · have found : (b.nodes.push _)[i]? = some n := found
    rw [Array.getElem?_push] at found
    split at found
    · cases found
      intro p parent
      have stack := h.stack
      cases rest : b.stack with
      | nil =>
        rw [rest] at parent
        cases parent
      | cons o r =>
        rw [rest] at parent stack
        cases parent
        cases stack with
        | cons first _ =>
          obtain ⟨q, known, -, reached, -⟩ := first.grow grown (Nat.le_refl _)
          exact ⟨q, known, Nat.le_trans reached le⟩
    · exact (h.follows i n found).grow grown rfl

/-- Adding a scalar or an alias. -/
theorem leaf (h : Derived s b position open_) (lies : e.Lies s position) (anchor : Option Text)
    {stop content : Mark} {body : Node.Body}
    (ended : ∀ n : Node, n.start = e.start → n.stop = stop → n.content = content → n.body = body →
      n.Ended s) : Derived s (b.add anchor e.start stop content body) e.stop.index open_ := by
  obtain ⟨nodes, follows, stack⟩ := h.add anchor e.start stop content body lies.begins
  have added : Derived s (b.add anchor e.start stop content body) position open_ := by
    refine ⟨h.text, fun i n found => ?_, follows, stack, h.deep⟩
    rcases nodes i n found with ⟨-, rfl⟩ | old
    · exact .inr (ended _ rfl rfl rfl rfl)
    · exact old
  exact added.mono (Nat.le_trans lies.begins lies.le)

/-- Adding a collection that stays open. -/
theorem enter (h : Derived s b position open_) (lies : e.Lies s position) (anchor : Option Text)
    {frame : Frame} {body : Node.Body}
    (opens : ∀ n : Node, n.start = e.start → n.content =
      Span.markAt s (Span.collectionContent s (frame == .flow) e.stop.index) e.stop → n.body = body →
        (n.kind = .sequence ∨ n.kind = .mapping) ∧ Opens s e open_ after n) :
    Derived s (b.enter anchor e frame body) e.stop.index after := by
  have further : position ≤ e.stop.index := Nat.le_trans lies.begins lies.le
  rw [Builder.enter, h.text]
  obtain ⟨nodes, follows, stack⟩ := h.add anchor e.start e.start
    (Span.markAt s (Span.collectionContent s (frame == .flow) e.stop.index) e.stop) body lies.begins
  obtain ⟨kind, begins, reached, closed, rfl, some_, flow⟩ :=
    opens ⟨b.nodes.size, b.stack.head?.map (·.index), anchor, e.start, e.start, _, body⟩ rfl rfl rfl
  refine ⟨h.text, fun i n found => ?_, follows,
    .cons ⟨_, Array.getElem?_push_size, begins, reached, kind, flow⟩ ?_, ?_⟩
  · rcases nodes i n found with ⟨rfl, -⟩ | inside | ended
    · exact .inl List.mem_cons_self
    · exact .inl (List.mem_cons_of_mem _ inside)
    · exact .inr ended
  · exact stack.imp fun _ _ begun => begun.grow (fun _ _ => rfl) further
  · intro inside
    rcases List.mem_cons.mp inside with rfl | outer
    · exact some_ rfl
    · exact Nat.lt_of_lt_of_le (h.deep outer) further

/-- Ending a collection, with a bracket of its own if it has one. -/
theorem close (h : Derived s b position open_) (lies : e.Lies s position)
    (ends : ∃ closed, open_ = closed :: after ∧ (closed = true →
      e.StopsWith (TokenFeed.ofText s).items fun k => k = .flowSequenceEnd ∨ k = .flowMappingEnd)) :
    Derived s (b.close e.stop) e.stop.index after := by
  obtain ⟨closed, rfl, bracket⟩ := ends
  have further : position ≤ e.stop.index := Nat.le_trans lies.begins lies.le
  have stack := h.stack
  rw [Builder.close]
  cases rest : b.stack with
  | nil =>
    rw [rest] at stack
    cases stack
  | cons o r =>
    rw [rest] at stack
    obtain ⟨⟨n, found, begins, reached, kind, flow⟩, others⟩ := List.forall₂_cons.mp stack
    have grown := Grows.close b.nodes o.index e.stop o.children.reverse
    refine ⟨h.text, fun i m known => ?_, fun i m known => ?_,
      others.imp fun _ _ begun => begun.grow grown further,
      fun some_ => Nat.lt_of_lt_of_le (h.deep (List.mem_cons_of_mem _ some_)) further⟩
    · have known : (b.nodes.modify o.index _)[i]? = some m := known
      rw [Array.getElem?_modify] at known
      split at known
      · next same =>
        subst same
        rw [found] at known
        cases known
        refine .inr (ended_of_closed lies begins reached kind flow bracket (m := _) ?_ rfl)
        obtain ⟨index, parent, anchor, start, stop, content, body⟩ := n
        cases body <;> rfl
      · next other =>
        rcases h.ended i m known with inside | ended
        · rw [rest] at inside
          exact .inl ((List.mem_cons.mp inside).resolve_left (Ne.symm other))
        · exact .inr ended
    · have inside := (Array.getElem?_eq_some_iff.mp known).1
      rw [Array.size_modify] at inside
      obtain ⟨n', found', same⟩ := grown.node' inside known
      exact (h.follows i n' found').grow grown same

/-- One event. -/
theorem step (h : Derived s b position open_) (lies : e.Lies s position)
    (tells : e.Tells (TokenFeed.ofText s).items open_ after) (taken : b.step e = .ok b') :
    Derived s b' e.stop.index after := by
  have idle : Derived s b e.stop.index open_ := h.mono (Nat.le_trans lies.begins lies.le)
  rw [Builder.step] at taken
  obtain ⟨_, -, taken⟩ := bind_eq_ok.mp taken
  cases kind : e.kind with
  | aliasOf name =>
    rw [kind] at taken
    obtain ⟨-, taken⟩ := guard_eq_ok.mp taken
    cases taken
    have same : after = open_ := by
      rw [Event.Tells, kind] at tells
      exact tells.1
    exact same ▸ h.leaf lies none fun n start stop content body =>
      ended_alias lies tells kind start stop content body
  | scalar anchor tag text quoting =>
    rw [kind] at taken
    cases taken
    have same : after = open_ := by
      rw [Event.Tells, kind] at tells
      exact tells.1
    rw [Builder.addScalar, h.text]
    exact same ▸ h.leaf lies anchor fun n start stop content body =>
      ended_scalar lies tells kind rfl start stop content body
  | sequenceStart anchor tag frame =>
    rw [kind] at taken
    cases taken
    refine h.enter lies anchor fun n start content body => ⟨.inl (by rw [Node.kind, body]), ?_⟩
    exact opens_sequence lies tells kind start content body
  | mappingStart anchor tag frame =>
    rw [kind] at taken
    cases taken
    refine h.enter lies anchor fun n start content body => ⟨.inr (by rw [Node.kind, body]), ?_⟩
    exact opens_mapping lies tells h.deep kind start content body
  | sequenceEnd | mappingEnd =>
    rw [kind] at taken
    cases taken
    rw [Event.Tells, kind] at tells
    exact h.close lies tells
  | documentStart =>
    rw [kind] at taken
    obtain ⟨-, taken⟩ := guard_eq_ok.mp taken
    cases taken
    rw [Event.Tells, kind] at tells
    exact tells ▸ ⟨idle.text, idle.ended, idle.follows, idle.stack, idle.deep⟩
  | streamStart | streamEnd | documentEnd =>
    rw [kind] at taken
    cases taken
    rw [Event.Tells, kind] at tells
    exact tells ▸ idle

/-- Events one behind another. -/
theorem steps {events : List Event} (h : Derived s b position open_)
    (lined : Event.Lined s (TokenFeed.ofText s).items position open_ events)
    (taken : events.foldlM Builder.step b = .ok b') :
    ∃ position open', Derived s b' position open' := by
  induction lined generalizing b with
  | nil =>
    cases taken
    exact ⟨_, _, h⟩
  | cons lies tells _ ih =>
    rw [List.foldlM_cons] at taken
    obtain ⟨c, first, taken⟩ := bind_eq_ok.mp taken
    exact ih (h.step lies tells first) taken

end Derived

variable {s : Text} {lenient : Bool} {t : Tree}

/-- What is known of every node of a tree. -/
theorem ended_of_compose (h : compose s lenient = .ok t) {i : Nat} {n : Node}
    (found : t.node? i = some n) : n.Ended s ∧ Follows t.nodes n := by
  obtain ⟨b, taken, whole, rfl⟩ := exists_of_compose h
  have start : Derived s { text := s, lenient } 0 [] := ⟨rfl, by simp, by simp, .nil, by simp⟩
  obtain ⟨position, open_, derived⟩ := start.steps (EventFeed.lined_ofText s) taken
  have nested : Nested [] { text := s, lenient } := ⟨.outside, .inl rfl, fun _ => ⟨rfl, rfl⟩⟩
  have fits := (nested.steps taken (EventFeed.moves_ofText whole)).fits
  refine ⟨(derived.ended i n found).resolve_left fun inside => ?_, derived.follows i n found⟩
  cases stack : b.stack with
  | nil =>
    rw [stack] at inside
    cases inside
  | cons o r =>
    rw [stack] at fits
    cases fits

end Tree

end YamlEdit
