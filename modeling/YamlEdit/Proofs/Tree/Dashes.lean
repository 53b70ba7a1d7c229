import YamlEdit.Proofs.Event.Entries
import YamlEdit.Proofs.Tree.WellFormed
import YamlEdit.Text.Position

/-!
# The dash of an entry

Every entry of a sequence outside of brackets has a dash of its own, in the column of the sequence,
and between the dash and the entry there is nothing but blanks, line breaks and comments.

The editor looks for it from the entry backwards and takes the first dash in the column. So it finds
the one of the entry unless a comment in between has a dash there.
-/

namespace YamlEdit

namespace Text

/-! ## Searching backwards -/

variable {s : Text}

theorem lastDash_le (s : Text) (column : Int) (last : Nat) : lastDash s column last ≤ last := by
  induction last with
  | zero => exact Nat.le_refl 0
  | succ last ih =>
    rw [lastDash]
    split
    · exact Nat.le_refl _
    · exact Nat.le_succ_of_le ih

/-- A place is the last dash at or before another one if no dash comes behind it. The start of the
text is found without a dash. -/
theorem lastDash_eq_iff {column : Int} {last dash : Nat} (le : dash ≤ last) :
    lastDash s column last = dash ↔
      (0 < dash → isDashAt s dash column = true) ∧
        ∀ p, dash < p → p ≤ last → isDashAt s p column = false := by
  induction last with
  | zero =>
    obtain rfl : dash = 0 := Nat.le_zero.mp le
    exact ⟨fun _ => ⟨nofun, fun p low high => by omega⟩, fun _ => rfl⟩
  | succ last ih =>
    rw [lastDash]
    split
    · next here =>
      constructor
      · rintro rfl
        exact ⟨fun _ => here, fun p low high => by omega⟩
      · rintro ⟨-, none⟩
        by_contra other
        rw [none (last + 1) (by omega) (Nat.le_refl _)] at here
        cases here
    · next other =>
      rcases Nat.lt_or_ge last dash with top | below
      · obtain rfl : dash = last + 1 := by omega
        have before := lastDash_le s column last
        exact ⟨fun same => by omega, fun h => absurd (h.1 (Nat.succ_pos last)) other⟩
      · rw [ih below]
        refine and_congr_right fun _ => ⟨fun none p low high => ?_, fun none p low high => none p low (by omega)⟩
        rcases Nat.lt_or_ge last p with top | inside
        · obtain rfl : p = last + 1 := by omega
          simpa using other
        · exact none p low inside

theorem dashBefore_natCast {start : Nat} (column : Int) (some_ : 0 < start)
    (inside : start ≤ s.length) :
    dashBefore s start column = .ok (lastDash s column (start - 1) : Nat) := by
  rw [dashBefore]
  split
  · obtain rfl : start = 1 := by omega
    rfl
  · rw [if_neg (by omega)]
    congr
    omega

/-! ## Columns -/

/-- Whether a character is a line end of Unicode, where the editor ends no line, or the byte order
mark, which takes a column for the editor only. -/
def isForeign (c : Char) : Bool :=
  c == '\x85' || c == '\u2028' || c == '\u2029' || c == '\uFEFF'

/-- A text whose lines and columns are those of the editor. -/
def EditorLines (s : Text) : Prop :=
  ∀ c ∈ s, isForeign c = false

instance (s : Text) : Decidable s.EditorLines :=
  List.decidableBAll (isForeign · = false) s

theorem lineStart_succ {n : Nat} {c : Char} {r : Text} (here : s.drop n = c :: r) :
    lineStart s (n + 1) = if isBreak c then n + 1 else lineStart s n := by
  have inside : n < s.length := by
    have length := congrArg List.length here
    rw [List.length_drop, List.length_cons] at length
    omega
  have last : s[n] = c := by
    have first := List.drop_eq_getElem_cons inside
    rw [here, List.cons.injEq] at first
    exact first.1.symm
  rw [lineStart, lineStart, List.take_succ_eq_append_getElem inside, last, List.reverse_append, List.reverse_singleton,
    List.singleton_append, List.takeWhile_cons, List.length_append, List.length_take,
    Nat.min_eq_left (Nat.le_of_lt inside), List.length_singleton]
  cases isBreak c <;> simp

/-- The column of a place is its distance from the start of its line, as the editor sees lines. -/
theorem EditorLines.column (h : s.EditorLines) {n : Nat} (inside : n ≤ s.length)
    (whole : (s.drop n).head? ≠ some '\n') :
    (Cursor.behind s n).mark.column + lineStart s n = n := by
  induction n with
  | zero => rfl
  | succ n ih =>
    have rest := Cursor.rest_behind s n
    have next : Cursor.behind s (n + 1) = Cursor.advance 1 (Cursor.behind s n) :=
      Cursor.advance_add n 1 _
    rw [next]
    cases here : s.drop n with
    | nil =>
      have length := congrArg List.length here
      rw [List.length_drop, List.length_nil] at length
      omega
    | cons c r =>
      have after : s.drop (n + 1) = r := by rw [← List.drop_drop, here]; rfl
      have plain := h c (List.mem_of_mem_drop (here ▸ List.mem_cons_self))
      rw [after] at whole
      rw [here] at rest ih
      rw [lineStart_succ here]
      generalize Cursor.behind s n = d at rest ih ⊢
      obtain ⟨rest', mark⟩ := d
      cases rest
      show (mark.past c r).column + _ = _
      by_cases feed : c = '\n'
      · subst feed
        simp [Mark.past, Mark.endsLine, isBreak]
      · have before := ih (by omega) (by simpa using feed)
        by_cases return_ : c = '\r'
        · subst return_
          have alone : (r.head? != some '\n') = true := by simpa using whole
          simp [Mark.past, alone, isBreak]
        · have inner : isBreak c = false := by simp [isBreak, feed, return_]
          simp only [isForeign, Bool.or_eq_false_iff] at plain
          obtain ⟨⟨⟨next, line⟩, paragraph⟩, wide⟩ := plain
          have stays : Mark.endsLine c = false := by
            simp [Mark.endsLine, feed, next, line, paragraph]
          rw [Mark.past, stays, inner, wide]
          simp only [Bool.false_or, Bool.false_eq_true, if_false, Bool.and_eq_true, beq_iff_eq,
            return_, false_and]
          dsimp only at before
          omega

/-! ## Comments -/

/-- A place behind the number sign of a comment that goes up to it. -/
def InComment (s : Text) (p : Nat) : Prop :=
  ∃ q < p, s[q]? = some '#' ∧ ∀ r, q < r → r < p → ∀ c ∈ s[r]?, Scan.isBreak c = false

/-- A dash among blanks, line breaks and comments is in a comment. -/
theorem inComment_of_margin {comment : Bool} (margin : isMarginFrom comment s = true) {p : Nat}
    (dash : s[p]? = some '-') :
    (comment = true ∧ ∀ r < p, ∀ c ∈ s[r]?, Scan.isBreak c = false) ∨ s.InComment p := by
  induction s generalizing comment p with
  | nil => cases dash
  | cons c s ih =>
    have later {k : Nat} (h : InComment s k) : InComment (c :: s) (k + 1) := by
      obtain ⟨q, before, sign, line⟩ := h
      refine ⟨q + 1, Nat.succ_lt_succ before, sign, fun r low high d hd => ?_⟩
      obtain ⟨r, rfl⟩ := Nat.exists_eq_add_one.mpr (Nat.zero_lt_of_lt low)
      exact line r (Nat.lt_of_succ_lt_succ low) (Nat.lt_of_succ_lt_succ high) d hd
    rw [isMarginFrom] at margin
    cases p with
    | zero =>
      cases dash
      cases comment with
      | true => exact .inl ⟨rfl, fun r low => absurd low (Nat.not_lt_zero r)⟩
      | false => cases margin
    | succ p =>
      split at margin
      · exact .inr (later ((ih margin dash).resolve_left fun wrong => Bool.noConfusion wrong.1))
      · next stays =>
        have stays : Scan.isBreak c = false := by simpa using stays
        split at margin
        · next inside =>
          refine (ih margin dash).imp (fun line => ⟨inside, fun r low d hd => ?_⟩) later
          cases r with
          | zero => exact Option.some.inj hd ▸ stays
          | succ r => exact line.2 r (Nat.lt_of_succ_lt_succ low) d hd
        · split at margin
          · exact .inr (later ((ih margin dash).resolve_left fun wrong => Bool.noConfusion wrong.1))
          · obtain ⟨sign, margin⟩ := Bool.and_eq_true_iff.mp margin
            refine .inr ((ih margin dash).elim (fun line => ?_) later)
            refine ⟨0, Nat.succ_pos p, congrArg some (eq_of_beq sign), fun r low high d hd => ?_⟩
            obtain ⟨r, rfl⟩ := Nat.exists_eq_add_one.mpr low
            exact line.2 r (Nat.lt_of_succ_lt_succ high) d hd

theorem inComment_of_slice {i j p : Nat} (margin : isMarginFrom false (slice s i j) = true)
    (low : i ≤ p) (high : p < j) (dash : s[p]? = some '-') : s.InComment p := by
  obtain ⟨k, rfl⟩ := Nat.exists_eq_add_of_le low
  rw [← getElem?_slice high] at dash
  obtain ⟨q, before, sign, line⟩ :=
    (inComment_of_margin margin dash).resolve_left fun wrong => Bool.noConfusion wrong.1
  rw [getElem?_slice (by omega)] at sign
  refine ⟨i + q, by omega, sign, fun r behind ahead c hc => ?_⟩
  obtain ⟨r, rfl⟩ := Nat.exists_eq_add_of_le (show i ≤ r by omega)
  rw [← getElem?_slice (show i + r < j by omega)] at hc
  exact line r (by omega) (by omega) c hc

theorem dash_of_isDashAt {p : Nat} {column : Int} (h : isDashAt s p column = true) :
    s[p]? = some '-' := by
  rw [isDashAt] at h
  split at h
  · next r here => rw [← List.head?_drop, here]; rfl
  · cases h

end Text

/-- Whether a node is a sequence with dashes. -/
def Node.hasDashes (n : Node) : Bool :=
  n.kind == .sequence && !n.isFlow

theorem Node.hasDashes_begun (n : Node) : n.begun.hasDashes = n.hasDashes := by
  obtain ⟨index, parent, anchor, start, stop, content, body⟩ := n
  cases body <;> rfl

namespace Tree

/-! ## Building -/

/-- The mark that a scanner has for the place where a node begins behind its anchor and tag. The
column of the node is that of the mark, or the one that the editor counts. -/
structure Sits (s : Text) (n : Node) (m : Mark) : Prop where
  inside : m.In s
  dash : (s.drop m.index).head? = some '-'
  index : m.index = n.content.index
  column : n.content.column = m.column ∨ n.content.column = m.index - Text.lineStart s m.index

/-- A node that has dashes has them in a column. -/
def DashesIn (s : Text) (n : Node) (column : Nat → Prop) : Prop :=
  n.hasDashes = true → ∃ m, Sits s n m ∧ column m.column

theorem DashesIn.grow {s : Text} {n m : Node} {column : Nat → Prop} (h : DashesIn s n column)
    (same : m.begun = n.begun) : DashesIn s m column := by
  intro dashes
  rw [← m.hasDashes_begun, same, n.hasDashes_begun] at dashes
  obtain ⟨mark, sits, here⟩ := h dashes
  have content : m.content = n.content := (congrArg Node.content same :)
  exact ⟨mark, ⟨sits.inside, sits.dash, content ▸ sits.index, content ▸ sits.column⟩, here⟩

/-- A node below another: where that has dashes, the node has one. -/
def Entered (s : Text) (nodes : Array Node) (n : Node) : Prop :=
  ∀ p, n.parent = some p → ∃ q, nodes[p]? = some q ∧
    DashesIn s q fun column => HasDash (TokenFeed.ofText s).items column n.start

theorem Entered.grow {s : Text} {nodes more : Array Node} {n m : Node} (h : Entered s nodes n)
    (grown : Grows nodes more) (same : m.begun = n.begun) : Entered s more m := by
  intro p parent
  have parent' : n.parent = some p := (congrArg Node.parent same :).symm.trans parent
  have start : m.start = n.start := (congrArg Node.start same :)
  obtain ⟨q, found, dashes⟩ := h p parent'
  obtain ⟨q', known, same'⟩ := grown.node found
  rw [start]
  exact ⟨q', known, dashes.grow same'⟩

/-- An open collection among nodes, and the column of its dashes. -/
def Column (s : Text) (nodes : Array Node) (o : Open) (column : Option Nat) : Prop :=
  ∃ q, nodes[o.index]? = some q ∧ DashesIn s q fun c => column = some c

theorem Column.grow {s : Text} {nodes more : Array Node} {o : Open} {column : Option Nat}
    (h : Column s nodes o column) (grown : Grows nodes more) : Column s more o column := by
  obtain ⟨q, found, dashes⟩ := h
  obtain ⟨q', known, same⟩ := grown.node found
  exact ⟨q', known, dashes.grow same⟩

/-- A builder whose nodes have their dashes, behind events that leave columns open. -/
structure Strung (s : Text) (b : Builder) (columns : List (Option Nat)) : Prop where
  text : b.text = s
  nodes : ∀ (i : Nat) n, b.nodes[i]? = some n → Entered s b.nodes n
  stack : List.Forall₂ (Column s b.nodes) b.stack columns

namespace Strung

variable {s : Text} {b : Builder} {columns : List (Option Nat)}

theorem forall₂_addChild {nodes more : Array Node} {stack : List Open} (c : Nat)
    (h : List.Forall₂ (Column s nodes) stack columns) (grown : Grows nodes more) :
    List.Forall₂ (Column s more) (Builder.addChild c stack) columns := by
  cases h with
  | nil => exact .nil
  | cons first rest => exact .cons (first.grow grown) (rest.imp fun _ _ h => h.grow grown)

/-- Adding a node that an event stands for. -/
theorem add (h : Strung s b columns) {start : Mark}
    (entry : ∀ c, columns.head? = some (some c) → HasDash (TokenFeed.ofText s).items c start)
    (anchor : Option Text) (stop content : Mark) (body : Node.Body) :
    Strung s (b.add anchor start stop content body) columns := by
  have grown : Grows b.nodes (b.add anchor start stop content body).nodes := .push b.nodes _
  refine ⟨h.text, ?_, forall₂_addChild _ h.stack grown⟩
  intro i n found
  have found : (b.nodes.push _)[i]? = some n := found
  rw [Array.getElem?_push] at found
  split at found
  · cases found
    intro p parent
    have stack := h.stack
    cases rest : b.stack with
    | nil =>
      rw [rest] at parent
      cases parent
    | cons o r =>
      rw [rest] at parent stack
      cases parent
      cases stack with
      | cons first _ =>
        obtain ⟨q, found, dashes⟩ := first.grow grown
        refine ⟨q, found, fun has => ?_⟩
        obtain ⟨m, sits, here⟩ := dashes has
        exact ⟨m, sits, entry m.column (here ▸ rfl)⟩
  · exact (h.nodes i n found).grow grown rfl

/-- A sequence begins where the token does that starts it. -/
theorem content_of_start {t : Token} (lies : t.Lies s) (starts : t.kind = .blockSequenceStart) :
    Span.collectionContent s false t.start.index = t.start.index := by
  obtain ⟨r, here⟩ := List.head?_eq_some_iff.mp (lies.begins starts)
  have first : Text.slice s t.start.index (t.start.index + 1) = ['-'] := by
    rw [Text.slice, here, Nat.add_sub_cancel_left]
    rfl
  rw [Span.collectionContent, if_neg Bool.false_ne_true, if_neg fun both => both.2 first]

/-- A sequence without such a token begins with its first dash. -/
theorem content_of_dash {t : Token} (lies : t.Lies s) (dash : t.kind = .blockEntry) :
    Span.collectionContent s false t.stop.index = t.start.index := by
  obtain ⟨r, here, space, behind⟩ := lies.dash dash
  have last : Text.slice s t.start.index (t.start.index + 1) = ['-'] := by
    rw [Text.slice, here, Nat.add_sub_cancel_left]
    rfl
  have next : Text.slice s (t.start.index + 1) (t.start.index + 1 + 1) ≠ ['-'] := by
    rw [Text.slice, ← List.drop_drop, here, Nat.add_sub_cancel_left]
    cases r with
    | nil => simp
    | cons c r =>
      rintro ⟨⟩
      cases space
  rw [Span.collectionContent, if_neg Bool.false_ne_true, behind, Nat.add_sub_cancel,
    if_pos ⟨last, next⟩]

/-- Where a sequence begins that an event opens. -/
theorem dashesIn_enter {e : Event} {anchor : Option Text} {tag : Tag} {frame : Frame}
    (kind : e.kind = .sequenceStart anchor tag frame)
    (opens : e.Opens (TokenFeed.ofText s).items) {n : Node}
    (content : n.content =
      Span.markAt s (Span.collectionContent s (frame == .flow) e.stop.index) e.stop)
    (body : n.body = .sequence tag frame []) :
    DashesIn s n fun c => e.dashes? = some c := by
  intro dashes
  have orderly := TokenFeed.orderly_ofText s
  rw [Event.Opens, kind] at opens
  rw [Event.dashes?, kind]
  cases frame with
  | flow =>
    rw [Node.hasDashes, Node.isFlow, body] at dashes
    simp at dashes
  | block =>
    obtain ⟨t, ht, starts, stop⟩ := opens
    have lies := orderly.lies t ht
    have index : Span.collectionContent s (Frame.block == .flow) e.stop.index = e.stop.index :=
      stop ▸ content_of_start lies starts
    have same : n.content = e.stop := by
      rw [content, index, Span.markAt, if_pos rfl]
    exact ⟨t.start, ⟨lies.start, lies.begins starts, by rw [same, stop], .inl (by rw [same, stop])⟩,
      by rw [stop]⟩
  | bare =>
    obtain ⟨t, ht, dash, stop⟩ := opens
    have lies := orderly.lies t ht
    obtain ⟨r, here, -, behind⟩ := lies.dash dash
    have index : Span.collectionContent s (Frame.bare == .flow) e.stop.index = t.start.index :=
      stop ▸ content_of_dash lies dash
    have same : n.content.index = t.start.index ∧
        n.content.column = t.start.index - Text.lineStart s t.start.index := by
      rw [content, index, Span.markAt, stop, if_neg (by omega), if_pos (by omega)]
      exact ⟨rfl, rfl⟩
    refine ⟨t.start, ⟨lies.start, by rw [here]; rfl, same.1.symm, .inr same.2⟩, ?_⟩
    rw [stop, lies.column_stop dash, Nat.add_sub_cancel]

/-- Adding a collection that stays open. -/
theorem enter (h : Strung s b columns) {e : Event} (isNode : e.kind.isNode = true)
    (fits : e.Fits (TokenFeed.ofText s).items columns) (anchor : Option Text) (frame : Frame)
    (body : Node.Body)
    (dashes : ∀ n : Node, n.body = body → n.content =
        Span.markAt s (Span.collectionContent s (frame == .flow) e.stop.index) e.stop →
      DashesIn s n fun c => e.dashes? = some c) :
    Strung s (b.enter anchor e frame body) (e.dashes? :: columns) := by
  have added := h.add (fits.entry isNode) anchor e.start
    (Span.markAt b.text (Span.collectionContent b.text (frame == .flow) e.stop.index) e.stop) body
  refine ⟨added.text, added.nodes, .cons ⟨_, Array.getElem?_push_size, dashes _ rfl ?_⟩ added.stack⟩
  rw [h.text]

theorem close (h : Strung s b columns) (stop : Mark) : Strung s (b.close stop) columns.tail := by
  have stack := h.stack
  rw [Builder.close]
  cases rest : b.stack with
  | nil =>
    rw [rest] at stack
    cases stack
    exact ⟨h.text, h.nodes, by rw [rest]; exact .nil⟩
  | cons o r =>
    rw [rest] at stack
    obtain ⟨column, columns', -, others, rfl⟩ := List.forall₂_cons_left_iff.mp stack
    have grown := Grows.close b.nodes o.index stop o.children.reverse
    refine ⟨h.text, ?_, others.imp fun _ _ h => h.grow grown⟩
    intro i m found
    have inside := (Array.getElem?_eq_some_iff.mp found).1
    rw [Array.size_modify] at inside
    obtain ⟨n, known, same⟩ := grown.node' inside found
    exact (h.nodes i n known).grow grown same

/-- One event. -/
theorem step (h : Strung s b columns) {e : Event} (fits : e.Fits (TokenFeed.ofText s).items columns)
    {b' : Builder} (taken : b.step e = .ok b') : Strung s b' (e.columns columns) := by
  rw [Builder.step] at taken
  obtain ⟨_, -, taken⟩ := bind_eq_ok.mp taken
  have entry := fits.entry
  rw [Event.columns]
  cases kind : e.kind with
  | documentStart =>
    rw [kind] at taken
    obtain ⟨-, taken⟩ := guard_eq_ok.mp taken
    cases taken
    exact { h with }
  | aliasOf name =>
    rw [kind] at taken entry
    obtain ⟨-, taken⟩ := guard_eq_ok.mp taken
    cases taken
    exact h.add (entry rfl) ..
  | scalar anchor tag text quoting =>
    rw [kind] at taken entry
    cases taken
    exact h.add (entry rfl) ..
  | sequenceStart anchor tag frame =>
    rw [kind] at taken
    cases taken
    exact h.enter (by rw [kind]; rfl) fits anchor frame _ fun n body content =>
      dashesIn_enter kind fits.opens content body
  | mappingStart anchor tag frame =>
    rw [kind] at taken
    cases taken
    refine h.enter (by rw [kind]; rfl) fits anchor frame _ fun n body _ dashes => ?_
    rw [Node.hasDashes, Node.kind, body] at dashes
    cases dashes
  | sequenceEnd =>
    rw [kind] at taken
    cases taken
    exact h.close e.stop
  | mappingEnd =>
    rw [kind] at taken
    cases taken
    exact h.close e.stop
  | streamStart =>
    rw [kind] at taken
    cases taken
    exact h
  | streamEnd =>
    rw [kind] at taken
    cases taken
    exact h
  | documentEnd =>
    rw [kind] at taken
    cases taken
    exact h

/-- Events that fit. -/
theorem steps {events : List Event} (h : Strung s b columns)
    (fits : Event.AllFit (TokenFeed.ofText s).items columns events) {b' : Builder}
    (taken : events.foldlM Builder.step b = .ok b') : ∃ columns', Strung s b' columns' := by
  induction events generalizing b columns with
  | nil =>
    cases taken
    exact ⟨columns, h⟩
  | cons e events ih =>
    rw [List.foldlM_cons] at taken
    obtain ⟨c, first, taken⟩ := bind_eq_ok.mp taken
    exact ih (h.step fits.1 first) fits.2 taken

end Strung

/-! ## Trees -/

variable {s : Text} {lenient : Bool} {t : Tree}

/-- What is composed has its dashes. -/
theorem entered_of_compose (h : compose s lenient = .ok t) {i : Nat} {n : Node}
    (found : t.node? i = some n) : Entered s t.nodes n := by
  obtain ⟨b, taken, -, rfl⟩ := exists_of_compose h
  have none : Strung s { text := s, lenient } [] := ⟨rfl, by simp, .nil⟩
  obtain ⟨columns, strung⟩ := none.steps (EventFeed.allFit_ofText s) taken
  exact strung.nodes i n found

/-- The token for the dash of an entry: the entry starts at the token right behind it, or is empty
there, and the text in between is blanks, line breaks and comments. -/
structure IsDashOf (t : Tree) (entry : Node) (dash : Token) : Prop where
  kind : dash.kind = .blockEntry
  place : ∃ before after, (TokenFeed.ofText t.text).items = before ++ dash :: after ∧
    (entry.start = dash.stop ∨ ∃ next ∈ after.head?, next.start = entry.start)
  here : t.text[dash.start.index]? = some '-'
  before : dash.start.index < entry.start.index
  inside : entry.start.index ≤ t.text.length
  margin : isMarginFrom false
    (Text.slice t.text (dash.start.index + 1) entry.start.index) = true

/-- An entry that starts behind a dash token. -/
theorem isDashOf_of_hasDash (text : t.text = s) {column : Nat} {entry : Node}
    (h : HasDash (TokenFeed.ofText s).items column entry.start) :
    ∃ dash, t.IsDashOf entry dash ∧ dash.Lies s ∧ dash.start.column = column := by
  obtain ⟨before, dash, after, cut, kind, column, next⟩ := h
  have orderly := TokenFeed.orderly_ofText s
  rw [cut] at orderly
  have lies := orderly.lies dash (by simp)
  obtain ⟨r, here, -, behind⟩ := lies.dash kind
  have gap : entry.start.index ≤ s.length ∧ Gap s dash.stop.index entry.start.index := by
    rcases next with start | ⟨u, hu, start⟩
    · rw [start]
      exact ⟨lies.stop.index, .refl s _⟩
    · obtain ⟨rest, rfl⟩ := List.head?_eq_some_iff.mp hu
      have leads := (List.isChain_append.mp orderly.chain).2.1.rel
      rw [← start]
      exact ⟨(orderly.lies u (by simp)).start.index, leads.gap (by rw [kind]; rfl)⟩
  obtain ⟨inside, gap⟩ := gap
  have le := gap.le
  rw [behind] at gap le
  refine ⟨dash, ⟨kind, ⟨before, after, text ▸ cut, next⟩, ?_, by omega, text ▸ inside, ?_⟩, lies, column⟩
  · rw [text, ← List.head?_drop, here]
    rfl
  · rw [text]
    exact gap.clear.resolve_right fun start => by omega

/-- In a text with the lines of the editor a dash that a scanner takes opens an entry for the editor
too, in the same column. -/
theorem isDashAt_of_lies (lines : s.EditorLines) {dash : Token} (lies : dash.Lies s)
    (kind : dash.kind = .blockEntry) {n : Node} {m : Mark} (sits : Sits s n m)
    (column : dash.start.column = m.column) :
    Text.isDashAt s dash.start.index n.content.column = true := by
  obtain ⟨r, here, space, -⟩ := lies.dash kind
  have first := lines.column lies.start.index (by rw [here]; simp)
  rw [← lies.start.place] at first
  have same : n.content.column = dash.start.column := by
    rcases sits.column with reader | editor
    · rw [reader, column]
    · have second := lines.column sits.inside.index (by rw [sits.dash]; simp)
      rw [← sits.inside.place] at second
      omega
  have blank : r.head?.all (fun c => c == ' ' || c == '\t' || c == '\r' || c == '\n') = true := by
    cases r with
    | nil => rfl
    | cons c r =>
      have plain := lines c (List.mem_of_mem_drop (here ▸ (by simp : c ∈ '-' :: c :: r)))
      simp only [Text.isForeign, Bool.or_eq_false_iff] at plain
      simpa [Scan.atSpace, Scan.endOr, Scan.isBreak, plain, or_assoc] using space
  rw [Text.isDashAt, here]
  show (_ && _) = true
  rw [blank, Bool.and_true, beq_iff_eq]
  omega

/-- Every entry of a sequence outside of brackets has a dash. The editor finds it exactly if no dash
in between is in its column, which would be one of a comment, and if it is a dash for the editor
itself; in a text with the lines of the editor it always is. -/
theorem finds_dash_iff (h : compose s lenient = .ok t) {n : Node} (hn : n ∈ t.nodes)
    (dashes : n.hasDashes = true) {i : Nat} (hi : i ∈ n.items) {entry : Node}
    (found : t.node? i = some entry) :
    ∃ dash, t.IsDashOf entry dash ∧
      (Text.dashBefore s entry.start.index n.content.column = .ok dash.start.index ↔
        (0 < dash.start.index → Text.isDashAt s dash.start.index n.content.column = true) ∧
          ∀ p, dash.start.index < p → p < entry.start.index →
            Text.isDashAt s p n.content.column = false) ∧
      (∀ p, dash.start.index < p → p < entry.start.index →
        Text.isDashAt s p n.content.column = true → s.InComment p) ∧
      (s.EditorLines → Text.isDashAt s dash.start.index n.content.column = true) := by
  obtain ⟨j, place⟩ := Array.mem_iff_getElem?.mp hn
  have parent : entry.parent = some j := by
    obtain ⟨b, related, nodes, -⟩ := related_of_compose h
    have child : i ∈ n.children := by
      rw [Node.items] at hi
      rw [Node.children]
      split at hi
      · next body => rwa [body]
      · cases hi
    obtain ⟨m, known, parent⟩ := related.children j n (nodes ▸ place) i child
    rw [nodes] at known
    cases found.symm.trans known
    exact parent
  obtain ⟨q, known, has⟩ := entered_of_compose h found j parent
  cases place.symm.trans known
  obtain ⟨m, sits, has⟩ := has dashes
  have text := text_of_compose h
  obtain ⟨dash, isDash, lies, column⟩ := isDashOf_of_hasDash text has
  have before := isDash.before
  have inside := text ▸ isDash.inside
  refine ⟨dash, isDash, ?_, fun p low high found => ?_, fun lines =>
    isDashAt_of_lies lines lies isDash.kind sits column⟩
  · rw [Text.dashBefore_natCast _ (by omega) inside, Except.ok.injEq, Int.natCast_inj,
      Text.lastDash_eq_iff (by omega)]
    refine and_congr_right fun _ => forall_congr' fun p => ?_
    exact ⟨fun none low high => none low (by omega), fun none low high => none low (by omega)⟩
  · exact Text.inComment_of_slice (text ▸ isDash.margin) low high (Text.dash_of_isDashAt found)

/-! ### Entries below their dashes -/

/-- A sequence whose first entry stands below its dash, behind a comment. -/
def noted : Text :=
  "k:\n  - # note\n    foo\n  - bar\n".toList

/-- A sequence whose entry stands below a comment that has a dash in the column of the sequence. -/
def struck : Text :=
  "k:\n  -\n# - not\n    foo\n".toList

/-- The sequence and its first entry, in a tree whose third node is the sequence. -/
def firstEntry? (t : Tree) : Option (Node × Node) := do
  let n ← t.node? 2
  let entry ← t.node? 3
  if n.hasDashes && n.items.contains 3 then some (n, entry) else none

theorem firstEntry?_eq_some {n entry : Node} (h : t.firstEntry? = some (n, entry)) :
    n ∈ t.nodes ∧ n.hasDashes = true ∧ 3 ∈ n.items ∧ t.node? 3 = some entry := by
  obtain ⟨n', place, h⟩ := Option.bind_eq_some_iff.mp h
  obtain ⟨entry', found, h⟩ := Option.bind_eq_some_iff.mp h
  split at h
  · next known =>
    cases h
    obtain ⟨dashes, child⟩ := Bool.and_eq_true_iff.mp known
    exact ⟨Array.mem_of_getElem? place, dashes, by simpa using child, found⟩
  · cases h

theorem finds_dash_iff_noted : ∃ t n entry dash, compose noted = .ok t ∧
    t.firstEntry? = some (n, entry) ∧ t.IsDashOf entry dash ∧
    Text.dashBefore noted entry.start.index n.content.column = .ok dash.start.index := by
  obtain ⟨t, composed, check⟩ := exists_of_any
    (show (compose noted).toOption.any (fun t => t.firstEntry?.any fun e =>
      decide (∀ p < e.2.start.index, Text.isDashAt noted p e.1.content.column = true → p = 5)) = true by
        decide +kernel)
  obtain ⟨⟨n, entry⟩, first, check⟩ := Option.any_eq_true _ _ |>.mp check
  have only := of_decide_eq_true check
  obtain ⟨hn, dashes, hi, found⟩ := firstEntry?_eq_some first
  obtain ⟨dash, isDash, finds, -, opens⟩ := finds_dash_iff composed hn dashes hi found
  have opens := opens (by decide +kernel)
  refine ⟨t, n, entry, dash, composed, first, isDash, finds.mpr ⟨fun _ => opens, ?_⟩⟩
  intro p low high
  have here := only dash.start.index isDash.before opens
  have there := only p high
  by_contra other
  have := there (by simpa using other)
  omega

/-- The editor takes the dash of the comment. -/
theorem mistakes_dash_struck : ∃ t n entry, compose struck = .ok t ∧
    t.firstEntry? = some (n, entry) ∧
    t.IsDashOf entry ⟨.blockEntry, ⟨5, 1, 2⟩, ⟨6, 1, 3⟩⟩ ∧
    Text.dashBefore struck entry.start.index n.content.column = .ok 9 ∧ struck.InComment 9 := by
  obtain ⟨t, composed, check⟩ := exists_of_any
    (show (compose struck).toOption.any (fun t => t.firstEntry?.any fun e =>
      e.2.start == ⟨19, 3, 4⟩ && e.1.content.column == 2) = true by decide +kernel)
  obtain ⟨⟨n, entry⟩, first, check⟩ := Option.any_eq_true _ _ |>.mp check
  obtain ⟨start, column⟩ := Bool.and_eq_true_iff.mp check
  have start : entry.start = ⟨19, 3, 4⟩ := eq_of_beq start
  have column : n.content.column = 2 := eq_of_beq column
  have text := text_of_compose composed
  refine ⟨t, n, entry, composed, first, ⟨rfl, ?_, ?_, ?_, ?_, ?_⟩, ?_, 7, by omega, rfl, ?_⟩
  · rw [text, start]
    exact ⟨(TokenFeed.ofText struck).items.take 6, (TokenFeed.ofText struck).items.drop 7,
      by decide +kernel, .inr (by decide +kernel)⟩
  · rw [text]
    rfl
  · rw [start]
    decide
  · rw [text, start]
    decide
  · rw [text, start]
    decide +kernel
  · rw [start, column]
    decide +kernel
  · intro r low high c hc
    obtain rfl : r = 8 := by omega
    cases hc
    rfl

end Tree

end YamlEdit
