import YamlEdit.Proofs.Outcome
import YamlEdit.Proofs.Outline.Scalar

/-!
# Outlines leave no blanks at the ends of lines

A document that is written from a value is tidy: no blank stands before the end of a line, and the
first line is not empty. What an outline is made of comes from values, so its anchors and tags are
words.
-/

namespace YamlEdit.Outline

/-- An outline whose anchors and tags are words and whose nulls have a text. -/
inductive Proper : Outline → Prop where
  | aliasOf {name : Text} : Word name → Proper (.aliasOf name)
  | scalar {anchor : Option Text} {tag : Tag} {text : Text} {style : Style} :
    (∀ name ∈ anchor, Word name) → Word (shortTag tag) → (tag = .null → text ≠ []) →
      Proper (.scalar anchor tag text style)
  | sequence {anchor : Option Text} {items : List Outline} :
    (∀ name ∈ anchor, Word name) → (∀ o ∈ items, Proper o) → Proper (.sequence anchor items)
  | mapping {anchor : Option Text} {tag : Tag} {pairs : List (Outline × Outline)} :
    (∀ name ∈ anchor, Word name) → Word (shortTag tag) → (∀ e ∈ pairs, Proper e.1) →
      (∀ e ∈ pairs, Proper e.2) → Proper (.mapping anchor tag pairs)

/-! ## Values give proper outlines -/

theorem word_anchorName (n : Nat) : Word (anchorName n) := by
  have zeros : ∀ k : Nat, Word (List.replicate k '0') := by
    intro k c hc
    rw [List.eq_of_mem_replicate hc]
    decide
  exact Word.append (s := ['i', 'd']) (.of_all rfl) ((zeros _).append (word_ofNat n))

theorem Census.word_anchor? {c : Census} {id : Nat} : ∀ name ∈ c.anchor? id, Word name := by
  intro name hn
  rw [anchor?] at hn
  split at hn
  · cases hn
    exact word_anchorName _
  · cases hn

theorem Census.word_alias (c : Census) (id : Nat) : Word ((c.anchor? id).getD []) := by
  cases h : c.anchor? id with
  | none => intro d hd; cases hd
  | some name => exact word_anchor? name h

/-- An object that may be shared gives what its body gives. -/
theorem proper_buildShared {c : Census} {done : List Nat} {id : Option Nat}
    {body : Option Text → List Nat → Except Unwritable (Outline × List Nat)}
    {r : Outline × List Nat} (h : buildShared c done id body = .ok r)
    (inner : ∀ anchor done, (∀ name ∈ anchor, Word name) → body anchor done = .ok r → Proper r.1) :
    Proper r.1 := by
  unfold buildShared at h
  split at h
  · exact inner none done (by simp) h
  · split at h
    · cases h
      exact .aliasOf (c.word_alias _)
    · exact inner _ _ Census.word_anchor? h

theorem proper_leaf {tag : Tag} {text : Text} (word : Word (shortTag tag))
    (nonempty : tag = .null → text ≠ []) : Proper (leaf tag text) :=
  .scalar (by simp) word nonempty

theorem proper_null : Proper (leaf .null "null".toList) :=
  proper_leaf (.of_all rfl) fun _ => by decide

mutual

/-- Every value gives a proper outline. -/
theorem proper_build {c : Census} {done : List Nat} {v : Value} {r : Outline × List Nat}
    (h : build c done v = .ok r) : Proper r.1 := by
  cases v with
  | null =>
    cases h
    exact proper_null
  | bool b | int n | float x | nan | str s =>
    cases h
    exact proper_leaf (.of_all rfl) (by simp)
  | bytes b =>
    cases h
    exact .scalar (by simp) (.of_all rfl) (by simp)
  | date id d | dateTime id d =>
    rw [build] at h
    refine proper_buildShared h ?_
    intro anchor done words inner
    cases inner
    exact .scalar words (.of_all rfl) (by simp)
  | list id items | tuple id items =>
    rw [build] at h
    refine proper_buildShared h ?_
    intro anchor done words inner
    obtain ⟨⟨items, done⟩, built, inner⟩ := bind_eq_ok.mp inner
    cases inner
    exact .sequence words (proper_buildItems built)
  | set id members =>
    rw [build] at h
    refine proper_buildShared h ?_
    intro anchor done words inner
    obtain ⟨⟨members, done⟩, built, inner⟩ := bind_eq_ok.mp inner
    cases inner
    have proper := proper_buildItems built
    refine .mapping words (.of_all rfl) ?_ ?_
    · intro e he
      obtain ⟨m, hm, rfl⟩ := List.mem_map.mp he
      exact proper m hm
    · intro e he
      obtain ⟨m, -, rfl⟩ := List.mem_map.mp he
      exact proper_null
  | dict id entries =>
    rw [build] at h
    refine proper_buildShared h ?_
    intro anchor done words inner
    obtain ⟨⟨pairs, done⟩, built, inner⟩ := bind_eq_ok.mp inner
    cases inner
    have proper := proper_buildEntries built
    exact .mapping words (.of_all rfl) (fun e he => (proper e he).1)
      fun e he => (proper e he).2
  | back id =>
    cases h
    exact .aliasOf (c.word_alias id)
  | foreign | unset => cases h

theorem proper_buildItems {c : Census} {done : List Nat} {items : List Value}
    {r : List Outline × List Nat} (h : buildItems c done items = .ok r) : ∀ o ∈ r.1, Proper o := by
  cases items with
  | nil =>
    cases h
    simp
  | cons v items =>
    obtain ⟨⟨o, done⟩, head, h⟩ := bind_eq_ok.mp h
    obtain ⟨⟨rest, done⟩, tail, h⟩ := bind_eq_ok.mp h
    cases h
    exact List.forall_mem_cons.mpr ⟨proper_build head, proper_buildItems tail⟩

theorem proper_buildEntries {c : Census} {done : List Nat} {entries : List (Value × Value)}
    {r : List (Outline × Outline) × List Nat} (h : buildEntries c done entries = .ok r) :
    ∀ e ∈ r.1, Proper e.1 ∧ Proper e.2 := by
  cases entries with
  | nil =>
    cases h
    simp
  | cons e entries =>
    obtain ⟨k, v⟩ := e
    obtain ⟨⟨key, done⟩, first, h⟩ := bind_eq_ok.mp h
    obtain ⟨⟨value, done⟩, second, h⟩ := bind_eq_ok.mp h
    obtain ⟨⟨rest, done⟩, tail, h⟩ := bind_eq_ok.mp h
    cases h
    exact List.forall_mem_cons.mpr
      ⟨⟨proper_build first, proper_build second⟩, proper_buildEntries tail⟩

end

theorem proper_ofValue {v : Value} {o : Outline} (h : ofValue v = .ok o) : Proper o := by
  rw [ofValue] at h
  cases hb : build (census {} v) [] v with
  | error e => rw [hb] at h; cases h
  | ok r =>
    rw [hb] at h
    cases h
    exact proper_build hb

/-! ## Writing keeps the pen sharp -/

/-- What a form needs of its text. -/
def Fits (tag : Tag) (text : Text) : Form → Prop
  | .plain => tag = Tag.implicit text ∧
      ((allowed text).flowPlain = true ∨ (allowed text).blockPlain = true)
  | .singleQuoted => Even text
  | .doubleQuoted => True
  | .literal => Even text ∧ ∀ c ∈ text.getLast?, c ≠ ' '

/-- The form that is taken fits. -/
theorem fits_form (place : Place) (tag : Tag) (text : Text) (style : Style) :
    Fits tag text (form place tag text style) := by
  unfold form
  dsimp only
  have plain : (if place.inFlow then (allowed text).flowPlain else (allowed text).blockPlain) = true →
      (allowed text).flowPlain = true ∨ (allowed text).blockPlain = true := by
    split
    · exact .inl
    · exact .inr
  generalize (if place.inFlow then (allowed text).flowPlain else (allowed text).blockPlain) = fits
    at plain ⊢
  cases style with
  | doubleQuoted => trivial
  | literal =>
    dsimp only
    split
    · next allows =>
      have literal := even_of_literal (Bool.and_eq_true_iff.mp allows).2
      exact ⟨literal.1, literal.2.2⟩
    · trivial
  | any =>
    dsimp only
    split
    · next allows =>
      simp only [Bool.and_eq_true, decide_eq_true_eq] at allows
      exact ⟨allows.1.1, plain allows.2⟩
    · split
      · next allows => exact even_of_singleQuoted (Bool.and_eq_true_iff.mp allows).1
      · trivial

namespace Pen

variable {p : Pen}

theorem neat_anchor (h : p.Neat) {anchor : Option Text} (words : ∀ name ∈ anchor, Word name) :
    (p.anchor anchor).Neat := by
  cases anchor with
  | none => exact h
  | some name =>
    have sign : Word ('&' :: name) :=
      Word.append (s := ['&']) (.of_all rfl) (words name rfl)
    exact (done_indicator h true false false sign (by simp)).toNeat

theorem sharp_anchor (h : p.Sharp) {anchor : Option Text} (words : ∀ name ∈ anchor, Word name) :
    (p.anchor anchor).Sharp := by
  cases anchor with
  | none => exact h
  | some name =>
    have sign : Word ('&' :: name) :=
      Word.append (s := ['&']) (.of_all rfl) (words name rfl)
    exact (done_indicator h.toNeat true false false sign (by simp)).toSharp

theorem done_scalar (h : p.Neat) (place : Place) (step column : Nat) {tag : Tag} {text : Text}
    (style : Style) (word : Word (shortTag tag)) (nonempty : tag = .null → text ≠ []) :
    (p.scalar place step column tag text style).Done := by
  have tagged : (if tagIsImplied tag text (form place tag text style) then p
      else p.indicator (shortTag tag) true).Neat := by
    split
    · exact h
    · exact (done_indicator h true false false word (by simp [shortTag])).toNeat
  have fits := fits_form place tag text style
  unfold scalar
  dsimp only
  generalize (if tagIsImplied tag text (form place tag text style) then p
      else p.indicator (shortTag tag) true) = q at tagged ⊢
  cases hf : form place tag text style with
  | plain =>
    rw [hf] at fits
    obtain ⟨inline, last⟩ := inline_of_plain fits.2
    refine done_plain tagged place.isRoot inline last ?_
    rintro rfl
    exact nonempty fits.1 rfl
  | singleQuoted =>
    rw [hf] at fits
    exact done_singleQuoted tagged column fits
  | doubleQuoted => exact done_doubleQuoted tagged text
  | literal =>
    rw [hf] at fits
    exact done_literal tagged step column fits.1 fits.2

end Pen

open Pen

mutual

/-- A written node ends behind its text. The pen may come with blanks behind it only to a node that
starts on the line, such as a short key. -/
theorem done_write (step : Nat) (flow : Bool) (place : Place) (indent : Option Nat) {o : Outline}
    (proper : Proper o) {p : Pen} (h : p.Neat) (sharp : p.Sharp ∨ isSimpleKey o = true) :
    (write step flow place indent o p).Done := by
  cases o with
  | aliasOf name =>
    cases proper with
    | aliasOf word =>
      rw [write]
      exact done_indicator h true false false
        (Word.append (s := ['*']) (.of_all rfl) word) (by simp)
  | scalar anchor tag text style =>
    cases proper with
    | scalar words word nonempty =>
      rw [write]
      exact done_scalar (neat_anchor h words) place step _ style word nonempty
  | sequence anchor items =>
    cases proper with
    | sequence words inner =>
      rw [write]
      dsimp only
      split
      · have opened := done_indicator (neat_anchor h words) (s := ['[']) true true false
          (.of_all rfl) (by simp)
        have filled := done_writeFlowItems step (deeper step step indent) false inner opened
        exact done_indicator filled.toNeat false false false (.of_all rfl) (by simp)
      · next block =>
        simp only [Bool.or_eq_true, not_or, Bool.not_eq_true] at block
        have block := block.2
        have sharp : p.Sharp := by
          refine sharp.resolve_right ?_
          simp [isSimpleKey, block]
        exact done_writeItems step _ inner (sharp_anchor sharp words)
          (.inr (by simpa using block))
  | mapping anchor tag pairs =>
    cases proper with
    | mapping words word keys values =>
      rw [write]
      have tagged : ∀ q : Pen, q.Neat →
          (if tag = .map then q else q.indicator (shortTag tag) true).Neat := by
        intro q hq
        split
        · exact hq
        · exact (done_indicator hq true false false word (by simp [shortTag])).toNeat
      dsimp only
      split
      · have opened := done_indicator (tagged _ (neat_anchor h words)) (s := ['\x7b']) true true
          false (.of_all rfl) (by simp)
        have filled := done_writeFlowPairs step (deeper step step indent) false keys values opened
        exact done_indicator filled.toNeat false false false (.of_all rfl) (by simp)
      · next block =>
        simp only [Bool.or_eq_true, not_or, Bool.not_eq_true] at block
        have block := block.2
        have sharp : p.Sharp := by
          refine sharp.resolve_right ?_
          simp [isSimpleKey, block]
        have sharp := sharp_anchor sharp words
        refine done_writePairs step _ keys values ?_ (.inr (by simpa using block))
        split
        · exact sharp
        · exact (done_indicator sharp.toNeat true false false word (by simp [shortTag])).toSharp

theorem done_writeItems (step column : Nat) {items : List Outline} (proper : ∀ o ∈ items, Proper o)
    {p : Pen} (h : p.Sharp) (either : p.Done ∨ items ≠ []) :
    (writeItems step column items p).Done := by
  cases items with
  | nil => exact either.resolve_right fun some => some rfl
  | cons o r =>
    obtain ⟨head, tail⟩ := List.forall_mem_cons.mp proper
    rw [writeItems]
    have dash := done_indicator (neat_indentTo h column) (s := ['-']) true false true
      (.of_all rfl) (by simp)
    have item := done_write step false {} (some column) head dash.toNeat (.inl dash.toSharp)
    exact done_writeItems step column tail item.toSharp (.inl item)

theorem done_writeFlowItems (step column : Nat) (more : Bool) {items : List Outline}
    (proper : ∀ o ∈ items, Proper o) {p : Pen} (h : p.Done) :
    (writeFlowItems step column more items p).Done := by
  cases items with
  | nil => exact h
  | cons o r =>
    obtain ⟨head, tail⟩ := List.forall_mem_cons.mp proper
    rw [writeFlowItems]
    have comma : (if more then p.indicator [','] false else p).Done := by
      split
      · exact done_indicator h.toNeat false false false (.of_all rfl) (by simp)
      · exact h
    have item := done_write step true { inFlow := true } (some column) head comma.toNeat
      (.inl comma.toSharp)
    exact done_writeFlowItems step column true tail item

theorem done_writePairs (step column : Nat) {pairs : List (Outline × Outline)}
    (keys : ∀ e ∈ pairs, Proper e.1) (values : ∀ e ∈ pairs, Proper e.2) {p : Pen} (h : p.Sharp)
    (either : p.Done ∨ pairs ≠ []) : (writePairs step column pairs p).Done := by
  cases pairs with
  | nil => exact either.resolve_right fun some => some rfl
  | cons e r =>
    obtain ⟨k, v⟩ := e
    obtain ⟨key, keys⟩ := List.forall_mem_cons.mp keys
    obtain ⟨value, values⟩ := List.forall_mem_cons.mp values
    rw [writePairs]
    have line := neat_indentTo h column
    dsimp only
    split
    · next simpleKey =>
      have named := done_write step false { inMapping := true, isSimpleKey := true } (some column)
        key line (.inr simpleKey)
      have colon := done_indicator named.toNeat (s := [':']) false false false
        (.of_all rfl) (by simp)
      have whole := done_write step false { inMapping := true } (some column) value colon.toNeat
        (.inl colon.toSharp)
      exact done_writePairs step column keys values whole.toSharp (.inl whole)
    · have mark := done_indicator line (s := ['?']) true false true (.of_all rfl) (by simp)
      have named := done_write step false { inMapping := true } (some column) key mark.toNeat
        (.inl mark.toSharp)
      have colon := done_indicator (neat_indentTo named.toSharp column) (s := [':']) true false true
        (.of_all rfl) (by simp)
      have whole := done_write step false { inMapping := true } (some column) value colon.toNeat
        (.inl colon.toSharp)
      exact done_writePairs step column keys values whole.toSharp (.inl whole)

theorem done_writeFlowPairs (step column : Nat) (more : Bool) {pairs : List (Outline × Outline)}
    (keys : ∀ e ∈ pairs, Proper e.1) (values : ∀ e ∈ pairs, Proper e.2) {p : Pen} (h : p.Done) :
    (writeFlowPairs step column more pairs p).Done := by
  cases pairs with
  | nil => exact h
  | cons e r =>
    obtain ⟨k, v⟩ := e
    obtain ⟨key, keys⟩ := List.forall_mem_cons.mp keys
    obtain ⟨value, values⟩ := List.forall_mem_cons.mp values
    rw [writeFlowPairs]
    have comma : (if more then p.indicator [','] false else p).Done := by
      split
      · exact done_indicator h.toNeat false false false (.of_all rfl) (by simp)
      · exact h
    dsimp only
    generalize (if more then p.indicator [','] false else p) = q at comma
    have colon : (if isSimpleKey k then
        (write step true { inMapping := true, isSimpleKey := true, inFlow := true } (some column) k
          q).indicator [':'] false
      else
        (write step true { inMapping := true, inFlow := true } (some column) k
          (q.indicator ['?'] true)).indicator [':'] true).Done := by
      split
      · have named := done_write step true
          { inMapping := true, isSimpleKey := true, inFlow := true } (some column) key comma.toNeat
          (.inl comma.toSharp)
        exact done_indicator named.toNeat false false false (.of_all rfl) (by simp)
      · have mark := done_indicator comma.toNeat (s := ['?']) true false false
          (.of_all rfl) (by simp)
        have named := done_write step true { inMapping := true, inFlow := true } (some column) key
          mark.toNeat (.inl mark.toSharp)
        exact done_indicator named.toNeat true false false (.of_all rfl) (by simp)
    have whole := done_write step true { inMapping := true, inFlow := true } (some column) value
      colon.toNeat (.inl colon.toSharp)
    exact done_writeFlowPairs step column true keys values whole

end

end YamlEdit.Outline
