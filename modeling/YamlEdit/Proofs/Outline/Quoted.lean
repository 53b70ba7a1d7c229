import Mathlib.Algebra.Group.Nat.Defs
import YamlEdit.Proofs.Document.RoundTrip
import YamlEdit.Proofs.Inset.Cursor
import YamlEdit.Proofs.Token.Nest

/-!
# Strings between double quotes

A string that is written between double quotes is one line, and it is read back as it was, whatever
it looks like. The characters are read one by one, each by the way in which it was written: as it
is, by the letter of an escape or by its number. Only a space waits until it is known that no line
ends behind it.
-/

namespace YamlEdit

/-! ## Escapes by number -/

namespace Scan

theorem hexNumber?_append (acc : Nat) (s t : Text) :
    hexNumber? acc (s ++ t) = (hexNumber? acc s).bind fun n => hexNumber? n t := by
  induction s generalizing acc with
  | nil => rfl
  | cons c r ih =>
    rw [List.cons_append, hexNumber?, hexNumber?]
    cases hexValue? c with
    | none => rfl
    | some d => exact ih _

theorem hexValue?_digitChar (d : Nat) (h : d < 16) :
    hexValue? (Nat.digitChar d).toUpper = some d := by
  have all : ∀ i : Fin 16, hexValue? (Nat.digitChar i).toUpper = some i.val := by decide
  exact all ⟨d, h⟩

/-- The last digits of a number spell what is left of it. -/
theorem hexNumber?_hex (width n : Nat) :
    hexNumber? 0 ((Text.hex width n).map Char.toUpper) = some (n % 16 ^ width) := by
  induction width generalizing n with
  | zero => rw [Nat.pow_zero, Nat.mod_one]; rfl
  | succ width ih =>
    have digit := hexValue?_digitChar (n % 16) (Nat.mod_lt _ (by decide))
    have value : n / 16 % 16 ^ width * 16 + n % 16 = n % 16 ^ (width + 1) := by
      rw [Nat.pow_succ', Nat.mod_mul, Nat.mul_comm, Nat.add_comm]
    rw [Text.hex, List.map_append, hexNumber?_append, ih]
    simp only [List.map_cons, List.map_nil, Option.bind_some, hexNumber?, digit, value]

namespace Quoted

/-- The number of a character is read as the character. -/
theorem numbered_hex {width : Nat} (c : Char) (t : Text) (fits : c.toNat < 16 ^ width) :
    numbered width ((Text.hex width c.toNat).map Char.toUpper ++ t) = .ok c := by
  have digits : ((Text.hex width c.toNat).map Char.toUpper ++ t).take width =
      (Text.hex width c.toNat).map Char.toUpper := by
    rw [List.take_append_of_le_length (by simp), List.take_of_length_le (by simp)]
  have small : ¬ 0x10FFFF < c.toNat := by
    have := c.valid
    simp only [UInt32.isValidChar, Nat.isValidChar] at this
    show ¬ 0x10FFFF < c.val.toNat
    omega
  rw [numbered, digits, hexNumber?_hex, Nat.mod_eq_of_lt fits]
  simp [small]

/-! ## Characters and strings -/

open Outline

theorem escape?_of_letter {c letter : Char} (h : escapeLetter? c = some letter) :
    escape? letter = some c := by
  rw [escapeLetter?] at h
  obtain ⟨before, after, cut, -⟩ := List.lookup_eq_some_iff.mp h
  have all : (before ++ (c, letter) :: after).all (fun e => escape? e.2 == some e.1) = true := by
    rw [← cut]
    decide
  rw [List.all_append, List.all_cons, Bool.and_eq_true, Bool.and_eq_true] at all
  exact eq_of_beq all.2.1

theorem beq_of_shown {c d : Char} (shown : isShown c = true) (hidden : isShown d = false) :
    (c == d) = false := by
  rw [beq_eq_false_iff_ne]
  rintro rfl
  rw [shown] at hidden
  cases hidden

theorem isBreak_of_shown {c : Char} (shown : isShown c = true) : isBreak c = false := by
  simp only [isBreak, Bool.or_eq_false_iff]
  exact ⟨⟨⟨⟨beq_of_shown shown rfl, beq_of_shown shown rfl⟩, beq_of_shown shown rfl⟩,
    beq_of_shown shown rfl⟩, beq_of_shown shown rfl⟩

/-- A shown character is none that means something between double quotes, a space apart. -/
theorem readFrom_shown {c : Char} (shown : isShown c = true) (gap : Gap) (t : Text) :
    readFrom true gap 0 (c :: t) =
      if c == ' ' then readFrom true (gap.blank c) 0 t
      else prepend (gap.text ++ [c]) (readFrom true (.blanks []) 0 t) := by
  have tab : (c == '\t') = false := beq_of_shown shown rfl
  have quote : (c == '"') = false := beq_of_shown shown rfl
  have backslash : (c == '\\') = false := beq_of_shown shown rfl
  rw [readFrom_inside true gap (isBreak_of_shown shown)]
  simp [tab, quote, backslash]

/-- An escape by number is read as its character. -/
theorem readEscape_numbered {letter : Char} {width : Nat} (none : escape? letter = none)
    (digits : escapeDigits? letter = some width) (gap : Gap) (c : Char) (t : Text)
    (fits : c.toNat < 16 ^ width) :
    readEscape gap (letter :: (Text.hex width c.toNat).map Char.toUpper ++ t) =
      prepend (gap.text ++ [c]) (readFrom true (.blanks []) 0 t) := by
  rw [List.cons_append, readEscape]
  simp only [none, digits, numbered_hex c t fits]
  rw [List.drop_append_of_le_length (by simp), List.drop_of_length_le (by simp), List.nil_append]

/-- Reading one written character. -/
theorem readFrom_escaped (gap : Gap) (c : Char) (t : Text) :
    readFrom true gap 0 (escaped c ++ t) =
      if c == ' ' then readFrom true (gap.blank c) 0 t
      else prepend (gap.text ++ [c]) (readFrom true (.blanks []) 0 t) := by
  rw [escaped]
  split
  · next shown => exact readFrom_shown shown gap t
  · next hidden =>
    have other : (c == ' ') = false := by
      rw [beq_eq_false_iff_ne]
      rintro rfl
      exact hidden rfl
    have backslash (r : Text) : readFrom true gap 0 ('\\' :: r) = readEscape gap r :=
      readFrom_inside true gap (c := '\\') rfl r
    simp only [other, Bool.false_eq_true, if_false]
    split
    · next letter found =>
      rw [List.cons_append, backslash, List.cons_append, List.nil_append, readEscape]
      simp only [escape?_of_letter found]
    · split
      · exact (backslash _).trans (readEscape_numbered rfl rfl gap c t (by omega))
      · split
        · exact (backslash _).trans (readEscape_numbered rfl rfl gap c t (by omega))
        · refine (backslash _).trans (readEscape_numbered rfl rfl gap c t ?_)
          have := c.val.toNat_lt
          show c.val.toNat < _
          omega

/-- A written string is read up to its closing quote. -/
theorem readFrom_flatMap_escaped (b s t : Text) :
    readFrom true (.blanks b) 0 (s.flatMap escaped ++ '"' :: t) = .ok (b.reverse ++ s, t) := by
  induction s generalizing b with
  | nil =>
    rw [List.append_nil]
    exact readFrom_inside true (.blanks b) (c := '"') rfl t
  | cons c r ih =>
    rw [List.flatMap_cons, List.append_assoc, readFrom_escaped]
    split
    · rw [Gap.blank, ih, List.reverse_cons, List.append_assoc]
      rfl
    · rw [ih]
      simp [prepend, Gap.text]

end Quoted

/-! ## The tokens of a text that is one string -/

namespace Scanner

/-- A scanner outside of all blocks at the end of the text, where no key is missing. -/
structure Done (s : Scanner) : Prop where
  rest : s.cursor.rest = []
  outer : s.outer = []
  free : ∀ k ∈ s.candidates, k.required = false

theorem unwind_of_outer {s : Scanner} (outer : s.outer = []) (column : Int) :
    s.unwind column = s := by
  rw [unwind, outer]
  split <;> rfl

/-- What is fetched at the end is the end of the stream. -/
theorem fetch_done {s : Scanner} (done : s.Done) :
    ∃ t, s.fetch = .ok t ∧ t.ended = true ∧
      t.queue = s.queue ++ [⟨.streamEnd, s.cursor.mark, s.cursor.mark⟩] := by
  have mark : s.skipMark = s := by
    rw [skipMark, done.rest]
  have next : toNextToken (s.cursor.rest.length + 1) s = s := by
    have reach := Cursor.reach_self s.cursor
    rw [done.rest] at reach ⊢
    simp only [toNextToken, done.rest]
    rw [show skipComment [] = [] from rfl, show afterBreak? [] = none from rfl, reach]
  have fresh := dropStale_of_free done.free
  generalize hu : { s with candidates := s.candidates.filter fun k => !s.isStale k } = u at fresh
  have outer : u.outer = [] := by rw [← hu]; exact done.outer
  have free : ∀ k ∈ u.candidates, k.required = false := by
    rw [← hu]
    exact fun k hk => done.free k (List.mem_of_mem_filter hk)
  obtain ⟨w, dropped, queue, cursor⟩ :
      ∃ w, u.dropCandidate = .ok w ∧ w.queue = u.queue ∧ w.cursor = u.cursor := by
    obtain ⟨l, dropped⟩ := dropCandidate_of_free free
    exact ⟨_, dropped, rfl, rfl⟩
  obtain ⟨t, ends, ended, waiting⟩ : ∃ t, u.fetchEnd = .ok t ∧ t.ended = true ∧
      t.queue = w.queue ++ [⟨.streamEnd, w.cursor.mark, w.cursor.mark⟩] := by
    rw [fetchEnd, unwind_of_outer outer]
    exact ⟨_, bind_eq_ok.mpr ⟨w, dropped, rfl⟩, rfl, rfl⟩
  rw [queue, queue_dropStale fresh, cursor, cursor_dropStale fresh] at waiting
  refine ⟨t, ?_, ended, waiting⟩
  rw [fetch, mark, next]
  refine bind_eq_ok.mpr ⟨u, fresh, ?_⟩
  dsimp only
  rw [unwind_of_outer outer, cursor_dropStale fresh, done.rest]
  exact ends

/-- Tokens that are not taken off the queue stay in it. -/
theorem release_parts (s : Scanner) (queue : List Token) :
    ∃ n kept, (s.release queue).1 = { s with taken := n, queue := kept } ∧
      (s.release queue).2 ++ kept = queue := by
  induction queue generalizing s with
  | nil => exact ⟨s.taken, [], rfl, rfl⟩
  | cons t queue ih =>
    rw [release]
    split
    · exact ⟨s.taken, t :: queue, rfl, rfl⟩
    · obtain ⟨n, kept, state, parts⟩ := ih { s with taken := s.taken + 1 }
      exact ⟨n, kept, state, congrArg (t :: ·) parts⟩

/-- The feed from the end of a text: what waits, and the end of the stream. -/
theorem feed_done {s : Scanner} (done : s.Done) (going : s.ended = false) (steps : Nat) :
    feed (steps + 2) s =
      ⟨s.queue ++ [⟨.streamEnd, s.cursor.mark, s.cursor.mark⟩], none⟩ := by
  obtain ⟨u, checked, same, queue, cursor⟩ :
      ∃ u, (if s.queue.isEmpty then Except.ok s else s.dropStale) = .ok u ∧ u.Done ∧
        u.queue = s.queue ∧ u.cursor = s.cursor := by
    split
    · exact ⟨s, rfl, done, rfl, rfl⟩
    · refine ⟨_, dropStale_of_free done.free, ⟨done.rest, done.outer, ?_⟩, rfl, rfl⟩
      exact fun k hk => done.free k (List.mem_of_mem_filter hk)
  obtain ⟨n, kept, state, parts⟩ := release_parts u u.queue
  have still : Done { u with taken := n, queue := kept } := ⟨same.rest, same.outer, same.free⟩
  obtain ⟨t, fetched, ended, waiting⟩ := fetch_done still
  rw [← state] at fetched
  have more : feed (steps + 1) t = ⟨t.queue, none⟩ := by
    rw [feed, ended, if_pos rfl]
  rw [feed, going, checked]
  simp only [Bool.false_eq_true, if_false, fetched, more]
  rw [waiting, ← List.append_assoc, parts, queue, cursor]

/-- A string between double quotes is one token. -/
theorem fetch_doubleQuoted (s : Text) :
    ∃ t m, (first (Outline.doubleQuoted s)).fetch = .ok t ∧ t.Done ∧ t.ended = false ∧
      t.queue = [⟨.scalar s .double, .zero, m⟩] := by
  have next : toNextToken ((Outline.doubleQuoted s).length + 1) (first (Outline.doubleQuoted s)) =
      first (Outline.doubleQuoted s) := by
    have reach := Cursor.reach_self (first (Outline.doubleQuoted s)).cursor
    exact congrArg (fun c => { first (Outline.doubleQuoted s) with cursor := c }) reach
  have fetched : (first (Outline.doubleQuoted s)).fetch =
      (first (Outline.doubleQuoted s)).fetchQuoted true := by
    show (toNextToken ((Outline.doubleQuoted s).length + 1)
      (first (Outline.doubleQuoted s))).dropStale >>= _ = _
    rw [next]
    rfl
  have read : Quoted.read true (s.flatMap Outline.escaped ++ ['"']) = .ok (s, []) :=
    Quoted.readFrom_flatMap_escaped [] s []
  have added : (first (Outline.doubleQuoted s)).addCandidate = .ok
      { first (Outline.doubleQuoted s) with candidates := [⟨0, 1, false, .zero⟩] } :=
    rfl
  obtain ⟨t, took, state⟩ : ∃ t, (first (Outline.doubleQuoted s)).fetchQuoted true = .ok t ∧
      t = ({ first (Outline.doubleQuoted s) with
        candidates := [⟨0, 1, false, .zero⟩], keyAllowed := false } : Scanner).takeTo
          (.scalar s .double) [] := by
    refine ⟨_, bind_eq_ok.mpr ⟨_, added, ?_⟩, rfl⟩
    dsimp only
    split
    · next f failed => cases read.symm.trans failed
    · next text rest found =>
      cases read.symm.trans found
      rfl
  refine ⟨t, _, fetched.trans took, ⟨?_, ?_, ?_⟩, ?_, by rw [state]; rfl⟩
  · rw [state]
    exact Cursor.rest_reach_of_suffix List.nil_suffix
  · rw [state]
    rfl
  · rw [state]
    exact fun k hk => by rw [List.mem_singleton.mp hk]
  · rw [state]
    rfl

end Scanner

end Scan

/-! ## What the string loads as -/

theorem tokens_doubleQuoted (s : Text) :
    ∃ m n, TokenFeed.ofText (Outline.doubleQuoted s) =
      ⟨[TokenFeed.start, ⟨.scalar s .double, .zero, m⟩, ⟨.streamEnd, n, n⟩], none⟩ := by
  obtain ⟨t, m, fetched, done, going, queue⟩ := Scan.Scanner.fetch_doubleQuoted s
  refine ⟨m, t.cursor.mark, ?_⟩
  rw [TokenFeed.ofText_eq, fetched]
  simp only [Scan.Scanner.feed_done done going, queue]
  rfl

theorem events_doubleQuoted (s : Text) :
    ∃ m n, EventFeed.ofText (Outline.doubleQuoted s) =
      ⟨[⟨.streamStart, .zero, .zero⟩, ⟨.documentStart, .zero, .zero⟩,
        ⟨.scalar none .str s .double, .zero, m⟩, ⟨.documentEnd, n, n⟩, ⟨.streamEnd, n, n⟩],
        none⟩ := by
  obtain ⟨m, n, tokens⟩ := tokens_doubleQuoted s
  refine ⟨m, n, ?_⟩
  rw [EventFeed.ofText, tokens]
  rfl

/-- The graph of a text that is one string. -/
def stringGraph (text s : Text) : Graph where
  text
  vertices := #[⟨.str, some .zero, .scalar s⟩]

/-- The whole string is one node. -/
theorem compose_doubleQuoted (s : Text)
    (readable : firstUnreadable? (Outline.doubleQuoted s) = none) :
    Graph.compose (Outline.doubleQuoted s) = .ok (stringGraph (Outline.doubleQuoted s) s) := by
  obtain ⟨m, n, events⟩ := events_doubleQuoted s
  rw [Graph.compose, readable, events]
  rfl

/-! ## A string is written as one line and read back -/

/-- What stands in a written string: characters that are shown, quotes and backslashes. -/
def Outline.Shows (s : Text) : Prop :=
  ∀ c ∈ s, (Outline.isShown c || c == '"' || c == '\\') = true

namespace Outline

theorem shows_hex (width n : Nat) : Shows ((Text.hex width n).map Char.toUpper) := by
  have digits : ∀ i : Fin 16, isShown (Nat.digitChar i).toUpper = true := by decide
  induction width generalizing n with
  | zero => exact List.forall_mem_nil _
  | succ width ih =>
    have digit : Shows [(Nat.digitChar (n % 16)).toUpper] := by
      intro c hc
      rw [List.mem_singleton.mp hc, digits ⟨n % 16, Nat.mod_lt _ (by decide)⟩]
      rfl
    rw [Text.hex, List.map_append]
    exact List.forall_mem_append.mpr ⟨ih (n / 16), digit⟩

theorem shows_escapeLetter {c letter : Char} (h : escapeLetter? c = some letter) :
    Shows ['\\', letter] := by
  rw [escapeLetter?] at h
  obtain ⟨before, after, cut, -⟩ := List.lookup_eq_some_iff.mp h
  have all : (before ++ (c, letter) :: after).all
      (fun e => ['\\', e.2].all fun d => isShown d || d == '"' || d == '\\') = true := by
    rw [← cut]
    decide
  rw [List.all_append, List.all_cons, Bool.and_eq_true, Bool.and_eq_true] at all
  exact List.all_eq_true.mp all.2.1

theorem shows_escaped (c : Char) : Shows (escaped c) := by
  have code {d : Char} (width : Nat) (letter : isShown d = true) :
      Shows ('\\' :: d :: (Text.hex width c.toNat).map Char.toUpper) :=
    List.forall_mem_cons.mpr ⟨rfl,
      List.forall_mem_cons.mpr ⟨by rw [letter]; rfl, shows_hex width c.toNat⟩⟩
  rw [escaped]
  split
  · next shown =>
    intro d hd
    rw [List.mem_singleton.mp hd, shown]
    rfl
  · split
    · next letter found => exact shows_escapeLetter found
    · split
      · exact code 2 rfl
      · split
        · exact code 4 rfl
        · exact code 8 rfl

theorem shows_doubleQuoted (s : Text) : Shows (doubleQuoted s) := by
  have inside : Shows (s.flatMap escaped) := by
    intro d hd
    obtain ⟨c, -, hc⟩ := List.mem_flatMap.mp hd
    exact shows_escaped c d hc
  have quote : Shows ['"'] := List.forall_mem_singleton.mpr rfl
  exact List.forall_mem_append.mpr ⟨List.forall_mem_append.mpr ⟨quote, inside⟩, quote⟩

/-- A shown character is on a line, and every document may hold it. -/
theorem clear_of_shows {s : Text} (h : Shows s) :
    ∀ c ∈ s, Scan.isBreak c = false ∧ isReadable c = true := by
  intro c hc
  have shows := h c hc
  simp only [Bool.or_eq_true, beq_iff_eq] at shows
  rcases shows with (shown | rfl) | rfl
  · refine ⟨Scan.Quoted.isBreak_of_shown shown, ?_⟩
    simp only [isShown, Bool.and_eq_true, Bool.or_eq_true] at shown
    simp only [isReadable, Bool.or_eq_true, Bool.and_eq_true]
    tauto
  · decide
  · decide

end Outline

/-- A string is one line between double quotes, and loads as what it was. -/
theorem Value.loadValue_scalarText (s : Text) :
    ∃ line, (Value.str s).scalarText = .ok line ∧ (∀ c ∈ line, Scan.isBreak c = false) ∧
      2 ≤ line.length ∧ line.head? = some '"' ∧ line.getLast? = some '"' ∧
      loadValue line = .ok (.str s) := by
  have clear := Outline.clear_of_shows (Outline.shows_doubleQuoted s)
  have composed := compose_doubleQuoted s (readable_iff.mpr fun c hc => (clear c hc).2)
  refine ⟨Outline.doubleQuoted s, rfl, fun c hc => (clear c hc).1, ?_, rfl, ?_, ?_⟩
  · simp [Outline.doubleQuoted]
  · exact List.getLast?_concat
  · rw [loadValue, load, composed]
    rfl

end YamlEdit
