import Mathlib.Data.List.Chain
import YamlEdit.Proofs.Token.Places
import YamlEdit.Proofs.Token.Start

/-!
# Tokens are nested

What is open behind some tokens: brackets and braces by their number, blocks by their columns. A
dash outside of brackets stands at the column of the innermost open block, so the entries of one
sequence stand one below the other.

The scanner keeps columns of its own, and it puts the start of a block before a token that waits when
a colon makes that token a key. That is no different from having put it there at once: from the token
on nothing was read that looks at the open blocks. So for every candidate the invariant says what is
open before its token, and that the tokens from there on change nothing about the blocks, whatever
they are.
-/

namespace YamlEdit

/-- What tokens leave open: how many brackets and braces, and the columns of the blocks, innermost
first. -/
structure Nest where
  depth : Nat := 0
  columns : List Nat := []
deriving DecidableEq, Repr

namespace Nest

/-- What is open behind a token. A dash outside of brackets has to be at the column of the innermost
block. -/
def take? (n : Nest) (t : Token) : Option Nest :=
  match t.kind with
  | .flowSequenceStart | .flowMappingStart => some { n with depth := n.depth + 1 }
  | .flowSequenceEnd | .flowMappingEnd => some { n with depth := n.depth - 1 }
  | .blockSequenceStart | .blockMappingStart =>
    some { n with columns := t.start.column :: n.columns }
  | .blockEnd => some { n with columns := n.columns.tail }
  | .blockEntry =>
    if n.depth = 0 ∧ n.columns.head? ≠ some t.start.column then none else some n
  | _ => some n

/-- What is open behind tokens. -/
def run (n : Nest) (tokens : List Token) : Option Nest :=
  tokens.foldlM take? n

@[simp] theorem run_nil (n : Nest) : n.run [] = some n := rfl

@[simp] theorem run_append (n : Nest) (s t : List Token) :
    n.run (s ++ t) = (n.run s).bind fun m => m.run t :=
  List.foldlM_append

@[simp] theorem run_singleton (n : Nest) (t : Token) : n.run [t] = n.take? t := by
  rw [run, List.foldlM_cons]
  cases n.take? t <;> rfl

end Nest

/-- Whether a token changes nothing about what is open. -/
def Token.Kind.isInert : Token.Kind → Bool
  | .flowSequenceStart | .flowMappingStart | .flowSequenceEnd | .flowMappingEnd
  | .blockSequenceStart | .blockMappingStart | .blockEnd | .blockEntry => false
  | _ => true

theorem Nest.take?_of_isInert {t : Token} (inert : t.kind.isInert = true) (n : Nest) :
    n.take? t = some n := by
  rw [Nest.take?]
  split <;> first | rfl | (next kind => rw [kind] at inert; cases inert)

theorem Nest.run_insert {t : Token} (inert : t.kind.isInert = true) (n : Nest)
    (before after : List Token) : n.run (before ++ t :: after) = n.run (before ++ after) := by
  rw [run_append, run_append]
  refine congrArg _ (funext fun m => ?_)
  rw [← List.singleton_append, run_append, run_singleton, take?_of_isInert inert,
    Option.bind_some]

theorem Token.Lies.of_isInert {s : Text} {t : Token} (inert : t.kind.isInert = true)
    (start : t.start.In s) (stop : t.stop.In s) (le : t.start.index ≤ t.stop.index) : t.Lies s := by
  refine .of_other ?_ start stop le
  generalize t.kind = kind at inert
  cases kind <;> first | rfl | cases inert

theorem insertIdx_append {α : Type} (l m : List α) (a : α) :
    (l ++ m).insertIdx l.length a = l ++ a :: m := by
  induction l with
  | nil => rfl
  | cons b l ih => rw [List.cons_append, List.length_cons, List.insertIdx_succ_cons, ih]; rfl

namespace Scan.Scanner

/-! ## Candidates -/

theorem dropCandidate_eq_ok {s t : Scanner} (h : s.dropCandidate = .ok t) :
    ∃ l, t = { s with candidates := l } ∧ l.Sublist s.candidates ∧ ∀ k ∈ l, k.level ≠ s.level := by
  rw [dropCandidate] at h
  split at h
  · split at h
    · cases h
    · cases h
      refine ⟨_, rfl, List.filter_sublist, fun k hk => ?_⟩
      simpa using (List.mem_filter.mp hk).2
  · next none =>
    cases h
    refine ⟨s.candidates, rfl, .refl _, fun k hk => ?_⟩
    simpa using List.find?_eq_none.mp none k hk

theorem dropStale_eq_ok {s t : Scanner} (h : s.dropStale = .ok t) :
    ∃ l, t = { s with candidates := l } ∧ l.Sublist s.candidates ∧ ∀ k ∈ l, s.isStale k = false := by
  rw [dropStale] at h
  split at h
  · cases h
  · cases h
    refine ⟨_, rfl, List.filter_sublist, fun k hk => ?_⟩
    simpa using (List.mem_filter.mp hk).2

/-- Where no candidate is a required one, none is missed. -/
theorem dropCandidate_of_free {s : Scanner} (free : ∀ k ∈ s.candidates, k.required = false) :
    ∃ l, s.dropCandidate = .ok { s with candidates := l } := by
  rw [dropCandidate]
  split
  · next k found =>
    rw [free k (List.mem_of_find?_eq_some found)]
    exact ⟨s.forget.candidates, rfl⟩
  · exact ⟨s.candidates, rfl⟩

theorem dropStale_of_free {s : Scanner} (free : ∀ k ∈ s.candidates, k.required = false) :
    s.dropStale = .ok { s with candidates := s.candidates.filter fun k => !s.isStale k } := by
  have none : (s.candidates.find? fun k => s.isStale k && k.required) = none := by
    rw [List.find?_eq_none]
    intro k hk
    simp [free k hk]
  rw [dropStale, none]

theorem addCandidate_eq_ok {s t : Scanner} (h : s.addCandidate = .ok t) :
    t = s ∨ ∃ l required, l.Sublist s.candidates ∧ (∀ k ∈ l, k.level ≠ s.level) ∧
      t = { s with
        candidates := l ++ [⟨s.level, s.taken + s.queue.length, required, s.cursor.mark⟩] } := by
  rw [addCandidate] at h
  split at h
  · obtain ⟨u, dropped, h⟩ := bind_eq_ok.mp h
    obtain ⟨l, rfl, sub, other⟩ := dropCandidate_eq_ok dropped
    cases h
    exact .inr ⟨l, _, sub, other, rfl⟩
  · cases h
    exact .inl rfl

theorem endBlocks_shape (s : Scanner) (column : Int) (outer : List Int) : ∃ q i o,
    s.endBlocks column outer = { s with queue := q, indent := i, outer := o } := by
  induction outer generalizing s with
  | nil => exact ⟨s.queue, s.indent, s.outer, rfl⟩
  | cons around outer ih =>
    rw [endBlocks]
    split
    · exact ih { s.pushHere .blockEnd with indent := around, outer := outer }
    · exact ⟨s.queue, s.indent, s.outer, rfl⟩

theorem unwind_shape (s : Scanner) (column : Int) : ∃ q i o,
    s.unwind column = { s with queue := q, indent := i, outer := o } := by
  rw [unwind]
  split
  · exact endBlocks_shape s column s.outer
  · exact ⟨s.queue, s.indent, s.outer, rfl⟩

/-- Ending blocks has nothing to do with the candidates. -/
theorem endBlocks_candidates (s : Scanner) (l : List Candidate) (column : Int) (outer : List Int) :
    ({ s with candidates := l } : Scanner).endBlocks column outer =
      { s.endBlocks column outer with candidates := l } := by
  induction outer generalizing s with
  | nil => rfl
  | cons around outer ih =>
    rw [endBlocks, endBlocks]
    split
    · exact ih { s.pushHere .blockEnd with indent := around, outer := outer }
    · rfl

theorem unwind_candidates (s : Scanner) (l : List Candidate) (column : Int) :
    ({ s with candidates := l } : Scanner).unwind column =
      { s.unwind column with candidates := l } := by
  rw [unwind, unwind]
  split
  · exact endBlocks_candidates s l column s.outer
  · rfl

/-! ## Tokens so far -/

/-- A candidate among the tokens so far. Its token, or the next one where it has none yet, starts at
its mark; outside of brackets nothing has changed about the blocks since. -/
structure Waits (src : Text) (all : List Token) (columns : List Nat) (taken depth : Nat) (here : Mark)
    (k : Candidate) : Prop where
  taken : taken ≤ k.number
  room : k.number ≤ all.length
  level : k.level ≤ depth
  mark : k.mark.In src
  before : k.mark.index ≤ here.index
  starts : (all[k.number]?).elim here (·.start) = k.mark
  indent : k.level = 0 → ∀ c ∈ columns.head?, c ≤ k.mark.column
  above : k.level = 0 → Nest.run {} (all.take k.number) = some ⟨0, columns⟩
  still : k.level = 0 → ∀ cs, Nest.run ⟨0, cs⟩ (all.drop k.number) = some ⟨depth, cs⟩

/-- A scanner behind the tokens so far, of which some wait in its queue; `columns` are those of the
open blocks. -/
structure Trail (src : Text) (all : List Token) (columns : List Nat) (s : Scanner) : Prop where
  cursor : s.cursor.In src
  room : s.taken ≤ all.length
  queue : s.queue = all.drop s.taken
  lies : ∀ t ∈ all, t.Lies src
  chain : all.IsChain fun t u => t.Leads src u.start.index
  last : ∀ t ∈ all.getLast?, t.Leads src s.cursor.mark.index
  indents : s.indent :: s.outer = columns.map Int.ofNat ++ [-1]
  nest : Nest.run {} all = some ⟨s.level, columns⟩
  waits : ∀ k ∈ s.candidates, Waits src all columns s.taken s.level s.cursor.mark k
  order : s.candidates.Pairwise fun k l => k.level < l.level ∧ k.number < l.number

/-- Every candidate has its token. -/
def Filled (all : List Token) (s : Scanner) : Prop :=
  ∀ k ∈ s.candidates, k.number < all.length

/-- A scanner that has gone on from some tokens, those that were taken being the same. -/
def Onward (src : Text) (all : List Token) (taken : Nat) (t : Scanner) : Prop :=
  ∃ all' columns, Trail src all' columns t ∧ Filled all' t ∧ t.taken = taken ∧
    all'.take taken = all.take taken

namespace Trail

variable {src : Text} {all : List Token} {columns : List Nat} {s : Scanner}

theorem allow (h : Trail src all columns s) (a : Bool) :
    Trail src all columns { s with keyAllowed := a } :=
  ⟨h.cursor, h.room, h.queue, h.lies, h.chain, h.last, h.indents, h.nest, h.waits, h.order⟩

theorem keep (h : Trail src all columns s) {l : List Candidate} (sub : l.Sublist s.candidates) :
    Trail src all columns { s with candidates := l } :=
  ⟨h.cursor, h.room, h.queue, h.lies, h.chain, h.last, h.indents, h.nest,
    fun k hk => h.waits k (sub.mem hk), h.order.sublist sub⟩

/-- Going over a gap, when every candidate has its token. -/
theorem goto (h : Trail src all columns s) (filled : Filled all s) {c : Cursor} (inside : c.In src)
    (gap : Gap src s.cursor.mark.index c.mark.index) (a : Bool) :
    Trail src all columns { s with cursor := c, keyAllowed := a } := by
  refine ⟨inside, h.room, h.queue, h.lies, h.chain, ?_, h.indents, h.nest, ?_, h.order⟩
  · exact fun t ht => (h.last t ht).trans gap
  · intro k hk
    have waits := h.waits k hk
    refine { waits with before := Nat.le_trans waits.before gap.le, starts := ?_ }
    have starts := waits.starts
    rw [List.getElem?_eq_getElem (filled k hk)] at starts ⊢
    exact starts

/-- Adding a token at the cursor. Candidates outside of brackets stay only if the token changes
nothing about the blocks, whatever they are. -/
theorem push (h : Trail src all columns s) {t : Token} {u : Scanner} {columns' : List Nat}
    (starts : t.start = s.cursor.mark) (lies : t.Lies src) (cursor : u.cursor.In src)
    (leads : t.Leads src u.cursor.mark.index) (queue : u.queue = s.queue ++ [t])
    (taken : u.taken = s.taken) (candidates : u.candidates.Sublist s.candidates)
    (indents : u.indent :: u.outer = columns'.map Int.ofNat ++ [-1])
    (took : Nest.take? ⟨s.level, columns⟩ t = some ⟨u.level, columns'⟩)
    (levels : ∀ k ∈ u.candidates, k.level ≤ u.level)
    (still : ∀ k ∈ u.candidates, k.level = 0 →
      columns' = columns ∧ ∀ cs, Nest.take? ⟨s.level, cs⟩ t = some ⟨u.level, cs⟩) :
    Trail src (all ++ [t]) columns' u ∧ Filled (all ++ [t]) u := by
  have room := h.room
  refine ⟨⟨cursor, ?_, ?_, ?_, ?_, ?_, indents, ?_, ?_, h.order.sublist candidates⟩, ?_⟩
  · rw [taken, List.length_append]
    omega
  · rw [queue, taken, h.queue, List.drop_append_of_le_length room]
  · exact List.forall_mem_append.mpr ⟨h.lies, List.forall_mem_singleton.mpr lies⟩
  · refine List.isChain_append.mpr ⟨h.chain, .singleton t, ?_⟩
    rintro first hf _ ⟨⟩
    rw [starts]
    exact h.last first hf
  · rw [List.getLast?_concat]
    rintro _ ⟨⟩
    exact leads
  · rw [Nest.run_append, h.nest, Option.bind_some, Nest.run_singleton, took]
  · intro k hk
    have waits := h.waits k (candidates.mem hk)
    have room := waits.room
    refine ⟨by rw [taken]; exact waits.taken, ?_, levels k hk, waits.mark, ?_, ?_, ?_, ?_, ?_⟩
    · rw [List.length_append]
      omega
    · have first := waits.before
      have second := lies.le
      have third := leads.le
      rw [← starts] at first
      omega
    · have starts' := waits.starts
      rcases Nat.lt_or_eq_of_le room with inside | next
      · rw [List.getElem?_append_left inside]
        rw [List.getElem?_eq_getElem inside] at starts' ⊢
        exact starts'
      · rw [next, List.getElem?_concat_length]
        rw [next, List.getElem?_eq_none (Nat.le_refl _)] at starts'
        exact starts.trans starts'
    · intro outside
      rw [(still k hk outside).1]
      exact waits.indent outside
    · intro outside
      rw [List.take_append_of_le_length room, (still k hk outside).1]
      exact waits.above outside
    · intro outside cs
      rw [List.drop_append_of_le_length room, Nest.run_append, waits.still outside,
        Option.bind_some, Nest.run_singleton, (still k hk outside).2]
  · intro k hk
    have room := (h.waits k (candidates.mem hk)).room
    rw [List.length_append, List.length_singleton]
    omega

/-- Adding a token that changes nothing about what is open. -/
theorem takeTo (h : Trail src all columns s) {kind : Token.Kind} (inert : kind.isInert = true)
    (rest : Text) :
    ∃ t, Trail src (all ++ [t]) columns (s.takeTo kind rest) ∧
      Filled (all ++ [t]) (s.takeTo kind rest) := by
  have further := h.cursor.reach rest
  have le : s.cursor.mark.index ≤ (s.cursor.reach rest).mark.index := by
    rw [Cursor.index_reach]
    exact Nat.le_add_right _ _
  have same (cs : List Nat) : Nest.take? ⟨s.level, cs⟩
      ⟨kind, s.cursor.mark, (s.cursor.reach rest).mark⟩ = some ⟨s.level, cs⟩ :=
    Nest.take?_of_isInert inert _
  exact ⟨_, h.push (t := ⟨kind, s.cursor.mark, (s.cursor.reach rest).mark⟩) rfl
    (.of_isInert inert h.cursor.mark further.mark le) further
    ⟨Nat.le_refl _, fun _ => .refl src _⟩ rfl rfl (.refl _) h.indents (same columns)
    (fun k hk => (h.waits k hk).level) fun _ _ _ => ⟨rfl, same⟩⟩

/-! ## Blocks -/

/-- Ending a block, when no candidate waits. -/
theorem endBlock (h : Trail src all columns s) (free : s.candidates = []) {around : Int}
    {outer : List Int} (open_ : s.outer = around :: outer) :
    ∃ t, Trail src (all ++ [t]) columns.tail
      { s.pushHere .blockEnd with indent := around, outer := outer } := by
  have inside := h.cursor
  have indents := h.indents
  cases columns with
  | nil =>
    rw [open_] at indents
    simp at indents
  | cons c columns =>
    rw [open_, List.map_cons, List.cons_append, List.cons.injEq] at indents
    refine ⟨⟨.blockEnd, s.cursor.mark, s.cursor.mark⟩, And.left (h.push rfl
      (.of_other rfl inside.mark inside.mark (Nat.le_refl _)) inside
      ⟨Nat.le_refl _, fun _ => .refl src _⟩ rfl rfl (.refl _) indents.2 rfl ?_ ?_)⟩
    all_goals
      intro k hk
      have none : k ∈ s.candidates := hk
      rw [free] at none
      cases none

/-- Ending blocks, when no candidate waits: those that are left begin at the column or before it. -/
theorem endBlocks (h : Trail src all columns s) (free : s.candidates = []) (column : Int) :
    ∃ more columns', Trail src (all ++ more) columns' (s.endBlocks column s.outer) ∧
      (-1 ≤ column → ∀ c ∈ columns'.head?, (c : Int) ≤ column) := by
  generalize ho : s.outer = outer
  induction outer generalizing s all columns with
  | nil =>
    have indents := h.indents
    rw [ho] at indents
    cases columns with
    | nil => exact ⟨[], [], by rw [List.append_nil]; exact h, fun _ _ none => by cases none⟩
    | cons c columns =>
      have none : [] = columns.map Int.ofNat ++ [-1] := (List.cons.inj indents).2
      simp at none
  | cons around outer ih =>
    rw [Scanner.endBlocks]
    split
    · obtain ⟨t, ended⟩ := h.endBlock free ho
      obtain ⟨more, columns', rest, low⟩ := ih ended free rfl
      exact ⟨t :: more, columns', by rw [List.append_cons]; exact rest, low⟩
    · next reached =>
      refine ⟨[], columns, by rw [List.append_nil]; exact h, ?_⟩
      intro _ c hc
      have indents := h.indents
      obtain ⟨r, rfl⟩ := List.head?_eq_some_iff.mp hc
      have head : s.indent = c := (List.cons.inj indents).1
      omega

/-- Ending the blocks that are indented past a column. Candidates may wait if there is no such
block. -/
theorem unwind (h : Trail src all columns s) (filled : Filled all s) (column : Int)
    (free : s.level = 0 → s.candidates = [] ∨ ∀ c ∈ columns.head?, (c : Int) ≤ column) :
    ∃ more columns', Trail src (all ++ more) columns' (s.unwind column) ∧
      Filled (all ++ more) (s.unwind column) ∧
      (s.level = 0 → -1 ≤ column → ∀ c ∈ columns'.head?, (c : Int) ≤ column) := by
  rw [Scanner.unwind]
  split
  · next outside =>
    have outside : s.level = 0 := by simpa using outside
    rcases free outside with none | low
    · obtain ⟨more, columns', ended, low⟩ := h.endBlocks none column
      refine ⟨more, columns', ended, ?_, fun _ => low⟩
      intro k hk
      obtain ⟨q, i, o, shape⟩ := endBlocks_shape s column s.outer
      have hk : k ∈ s.candidates := by rwa [shape] at hk
      rw [none] at hk
      cases hk
    · have still : s.endBlocks column s.outer = s := by
        have indents := h.indents
        cases outer : s.outer with
        | nil => rfl
        | cons around outer' =>
          rw [Scanner.endBlocks, if_neg]
          cases columns with
          | nil =>
            rw [outer] at indents
            simp at indents
          | cons c columns =>
            have head : s.indent = c := (List.cons.inj indents).1
            have := low c rfl
            omega
      rw [still]
      exact ⟨[], columns, by rw [List.append_nil]; exact h, by rw [List.append_nil]; exact filled,
        fun _ _ => low⟩
  · next inside =>
    exact ⟨[], columns, by rw [List.append_nil]; exact h, by rw [List.append_nil]; exact filled,
      fun outside => absurd (by simpa using outside) inside⟩

/-- Entering a block at the cursor, when no candidate waits. -/
theorem startBlock (h : Trail src all columns s) (filled : Filled all s)
    (free : s.level = 0 → s.candidates = [])
    (low : s.level = 0 → ∀ c ∈ columns.head?, c ≤ s.cursor.mark.column) {kind : Token.Kind}
    (block : kind = .blockMappingStart ∨
      kind = .blockSequenceStart ∧ s.cursor.rest.head? = some '-') :
    ∃ more columns', Trail src (all ++ more) columns' (s.startBlock kind) ∧
      Filled (all ++ more) (s.startBlock kind) ∧
      (s.level = 0 → columns'.head? = some s.cursor.mark.column) := by
  have inside := h.cursor
  have indents := h.indents
  rw [Scanner.startBlock, opensBlock]
  split
  · next opens =>
    obtain ⟨outside, -⟩ := Bool.and_eq_true_iff.mp opens
    have none : s.candidates = [] := free (by simpa using outside)
    have lies : Token.Lies src ⟨kind, s.cursor.mark, s.cursor.mark⟩ := by
      refine ⟨inside.mark, inside.mark, Nat.le_refl _, ?_, fun starts => ?_⟩
      · rintro rfl
        rcases block with block | ⟨block, -⟩ <;> cases block
      · rcases block with rfl | ⟨-, dash⟩
        · cases starts
        · rwa [← inside.rest]
    have took : Nest.take? ⟨s.level, columns⟩ ⟨kind, s.cursor.mark, s.cursor.mark⟩ =
        some ⟨s.level, s.cursor.mark.column :: columns⟩ := by
      rcases block with rfl | ⟨rfl, -⟩ <;> rfl
    have pushed := h.push (t := ⟨kind, s.cursor.mark, s.cursor.mark⟩)
      (u := (s.enter s.cursor.mark.column).pushHere kind)
      rfl lies inside
      ⟨Nat.le_refl _, fun _ => .refl src _⟩ rfl rfl (.refl _)
      (by rw [List.map_cons, List.cons_append, ← indents]; rfl) took
      (fun k hk => (h.waits k hk).level) fun k hk => by
        have hk : k ∈ s.candidates := hk
        rw [none] at hk
        cases hk
    exact ⟨_, _, pushed.1, pushed.2, fun _ => rfl⟩
  · next stays =>
    refine ⟨[], columns, by rwa [List.append_nil], by rwa [List.append_nil], ?_⟩
    intro outside
    have reached : ¬ s.indent < s.cursor.mark.column := by
      simpa [outside] using stays
    cases columns with
    | nil =>
      have least : s.indent = -1 := (List.cons.inj indents).1
      omega
    | cons c columns =>
      have head : s.indent = c := (List.cons.inj indents).1
      have low := low outside c rfl
      rw [List.head?_cons, Option.some.injEq]
      omega

/-- Putting a token before the one of a candidate, behind those of the other candidates. -/
theorem insert {before after : List Token} {b : Token}
    (h : Trail src (before ++ b :: after) columns s) {k : Candidate} {t : Token} {u : Scanner}
    {columns' : List Nat} (number : k.number = before.length) (taken_le : s.taken ≤ k.number)
    (start : t.start = b.start) (stop : t.stop = b.start) (lies : t.Lies src)
    (cursor : u.cursor = s.cursor) (level : u.level = s.level) (taken : u.taken = s.taken)
    (queue : u.queue = s.queue.insertIdx (k.number - s.taken) t)
    (indents : u.indent :: u.outer = columns'.map Int.ofNat ++ [-1])
    (nest : Nest.run {} (before ++ t :: b :: after) = some ⟨s.level, columns'⟩)
    (candidates : u.candidates.Sublist s.candidates)
    (earlier : ∀ l ∈ u.candidates, l.number < k.number)
    (still : ∀ l ∈ u.candidates, l.level = 0 → columns' = columns ∧ t.kind.isInert = true) :
    Trail src (before ++ t :: b :: after) columns' u ∧ Filled (before ++ t :: b :: after) u := by
  have room : s.taken ≤ before.length := number ▸ taken_le
  have same (l : Candidate) (hl : l ∈ u.candidates) : l.number < before.length :=
    number ▸ earlier l hl
  refine ⟨⟨?_, ?_, ?_, ?_, ?_, ?_, indents, ?_, ?_, h.order.sublist candidates⟩, ?_⟩
  · rw [cursor]
    exact h.cursor
  · rw [taken, List.length_append]
    omega
  · rw [queue, taken, h.queue, List.drop_append_of_le_length room,
      List.drop_append_of_le_length room, number, ← List.length_drop, insertIdx_append]
  · intro x hx
    rcases List.mem_append.mp hx with first | rest
    · exact h.lies x (List.mem_append_left _ first)
    · rcases List.mem_cons.mp rest with rfl | later
      · exact lies
      · exact h.lies x (List.mem_append_right _ later)
  · obtain ⟨first, second, joint⟩ := List.isChain_append.mp h.chain
    refine List.isChain_append.mpr ⟨first, .cons_cons ?_ second, ?_⟩
    · rw [← stop]
      exact ⟨Nat.le_refl _, fun _ => .refl src _⟩
    · rintro x hx _ ⟨⟩
      rw [start]
      exact joint x hx b rfl
  · intro x hx
    rw [cursor]
    refine h.last x ?_
    simpa using hx
  · rw [level]
    exact nest
  · intro l hl
    have waits := h.waits l (candidates.mem hl)
    have inside := same l hl
    refine ⟨by rw [taken]; exact waits.taken, ?_, by rw [level]; exact waits.level, waits.mark,
      by rw [cursor]; exact waits.before, ?_, ?_, ?_, ?_⟩
    · rw [List.length_append]
      omega
    · have starts := waits.starts
      rw [List.getElem?_append_left inside] at starts ⊢
      rwa [cursor]
    · intro outside
      rw [(still l hl outside).1]
      exact waits.indent outside
    · intro outside
      have above := waits.above outside
      rw [List.take_append_of_le_length (Nat.le_of_lt inside)] at above ⊢
      rw [(still l hl outside).1]
      exact above
    · intro outside cs
      have unmoved := waits.still outside cs
      rw [List.drop_append_of_le_length (Nat.le_of_lt inside)] at unmoved ⊢
      rw [level, Nest.run_insert (still l hl outside).2, unmoved]
  · intro l hl
    have inside := same l hl
    rw [List.length_append]
    omega

/-! ## Candidates that come and go -/

theorem dropped_eq_nil (h : Trail src all columns s) {l : List Candidate}
    (sub : l.Sublist s.candidates) (other : ∀ k ∈ l, k.level ≠ s.level) (outside : s.level = 0) :
    l = [] := by
  refine List.eq_nil_iff_forall_not_mem.mpr fun k hk => other k hk ?_
  have := (h.waits k (sub.mem hk)).level
  omega

/-- The next token becomes a candidate. -/
theorem addCandidate (h : Trail src all columns s) (filled : Filled all s)
    (low : s.level = 0 → ∀ c ∈ columns.head?, c ≤ s.cursor.mark.column) {u : Scanner}
    (hu : s.addCandidate = .ok u) :
    Trail src all columns u ∧ u.cursor = s.cursor ∧ u.taken = s.taken ∧ u.level = s.level := by
  rcases addCandidate_eq_ok hu with rfl | ⟨l, required, sub, other, rfl⟩
  · exact ⟨h, rfl, rfl, rfl⟩
  have number : s.taken + s.queue.length = all.length := by
    have room := h.room
    rw [h.queue, List.length_drop]
    omega
  rw [number]
  refine ⟨⟨h.cursor, h.room, h.queue, h.lies, h.chain, h.last, h.indents, h.nest, ?_, ?_⟩,
    rfl, rfl, rfl⟩
  · refine List.forall_mem_append.mpr ⟨fun k hk => h.waits k (sub.mem hk), ?_⟩
    refine List.forall_mem_singleton.mpr ⟨h.room, Nat.le_refl _, Nat.le_refl _, h.cursor.mark,
      Nat.le_refl _, ?_, low, fun outside => ?_, fun outside cs => ?_⟩
    · rw [List.getElem?_eq_none (Nat.le_refl _)]
      rfl
    · have outside : s.level = 0 := outside
      rw [List.take_length, h.nest, outside]
    · have outside : s.level = 0 := outside
      rw [List.drop_length, outside]
      rfl
  · refine List.pairwise_append.mpr ⟨h.order.sublist sub, List.pairwise_singleton _ _, ?_⟩
    rintro k hk _ (_ | ⟨_, ⟨⟩⟩)
    have level := (h.waits k (sub.mem hk)).level
    have apart := other k hk
    exact ⟨by dsimp only; omega, filled k (sub.mem hk)⟩

theorem onward {more : List Token} (h : Trail src (all ++ more) columns s)
    (filled : Filled (all ++ more) s) (room : s.taken ≤ all.length) :
    Onward src all s.taken s :=
  ⟨all ++ more, columns, h, filled, rfl, List.take_append_of_le_length room⟩

end Trail

theorem dropCandidate_unwind {s t : Scanner} {column : Int}
    (h : (s.unwind column).dropCandidate = .ok t) :
    ∃ l, t = ({ s with candidates := l } : Scanner).unwind column ∧ l.Sublist s.candidates ∧
      ∀ k ∈ l, k.level ≠ s.level := by
  obtain ⟨l, rfl, sub, other⟩ := dropCandidate_eq_ok h
  refine ⟨l, (unwind_candidates s l column).symm, ?_, ?_⟩
  all_goals
    obtain ⟨q, i, o, shape⟩ := unwind_shape s column
    rw [shape] at sub other
  · exact sub
  · exact other

theorem startBlock_candidates (s : Scanner) (l : List Candidate) (kind : Token.Kind) :
    ({ s with candidates := l } : Scanner).startBlock kind =
      { s.startBlock kind with candidates := l } := by
  rw [startBlock, startBlock]
  show (if s.opensBlock s.cursor.mark.column then _ else _) = _
  split <;> rfl

theorem startBlock_shape (s : Scanner) (kind : Token.Kind) : ∃ q i o,
    s.startBlock kind = { s with queue := q, indent := i, outer := o } := by
  rw [startBlock]
  split
  · exact ⟨_, _, _, rfl⟩
  · exact ⟨s.queue, s.indent, s.outer, rfl⟩

theorem dropCandidate_startBlock {s t : Scanner} {kind : Token.Kind} {a : Bool}
    (h : ({ s.startBlock kind with keyAllowed := a } : Scanner).dropCandidate = .ok t) :
    ∃ l, t = { ({ s with candidates := l } : Scanner).startBlock kind with keyAllowed := a } ∧
      l.Sublist s.candidates ∧ ∀ k ∈ l, k.level ≠ s.level := by
  obtain ⟨l, rfl, sub, other⟩ := dropCandidate_eq_ok h
  refine ⟨l, by rw [startBlock_candidates s l kind], ?_, ?_⟩
  all_goals
    obtain ⟨q, i, o, shape⟩ := startBlock_shape s kind
    rw [shape] at sub other
  · exact sub
  · exact other

end Scan.Scanner

end YamlEdit
