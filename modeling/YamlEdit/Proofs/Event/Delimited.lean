import YamlEdit.Proofs.Event.Order
import YamlEdit.Proofs.Token.Grows

/-!
# What stands between entries

Tokens with events up to the end are delimited: every bracket is closed, and behind a scalar in
brackets comes a comma, a colon, or the bracket or brace that closes.

A step takes a scalar last, and goes on with the state that waits on the stack. In brackets such a
state takes nothing but what separates; without that it goes on to one that takes less, until there
is a fault.
-/

namespace YamlEdit

theorem Meets.and {ε σ α : Type} {P Q : α → σ → Prop} {x : StateT σ (Except ε) α} {s : σ}
    (left : Meets P x s) (right : Meets Q x s) : Meets (fun a t => P a t ∧ Q a t) x s :=
  ⟨fun a t run => ⟨left.run a t run, right.run a t run⟩⟩

/-- Whether a token is a scalar. -/
def Token.Kind.isScalar : Token.Kind → Bool
  | .scalar .. => true
  | _ => false

namespace Walk

/-- Whether a state stands behind an entry or a key in brackets or braces, or behind none yet. -/
def State.isDue : State → Bool
  | pairValue | pairEnd => true
  | state => state.isFlow

/-- A walker that has taken tokens of some kinds from another. -/
structure Walker.Passed (p : Token.Kind → Prop) (w u : Walker) : Prop where
  stack : u.stack = w.stack
  cut : ∃ eaten, w.tokens = eaten ++ u.tokens ∧ ∀ t ∈ eaten, p t.kind

/-- A walker that has taken tokens from another, and a scalar last, if at all. Behind that it goes on
with the state that waited. -/
inductive Draws (w u : Walker) : Prop
  | silent (eaten : List Token) (cut : w.tokens = eaten ++ u.tokens)
      (none : ∀ t ∈ eaten, t.kind.isScalar = false) (running : u.state ≠ .finished)
  | scalar (eaten : List Token) (t : Token) (cut : w.tokens = eaten ++ t :: u.tokens)
      (none : ∀ t ∈ eaten, t.kind.isScalar = false) (inside : Inside (u.state :: u.stack))

/-- A walker that has taken the end of the stream between documents. -/
structure Finishes (w u : Walker) : Prop where
  start : w.state = .firstDocument ∨ w.state = .nextDocument
  finished : u.state = .finished
  cut : ∃ eaten t, w.tokens = eaten ++ t :: u.tokens ∧ t.kind = .streamEnd ∧
    ∀ x ∈ eaten, x.kind = .documentEnd

section

variable {p q : Token.Kind → Prop} {w u v : Walker} {t : Token}

namespace Walker.Passed

theorem refl (w : Walker) : w.Passed p w :=
  ⟨rfl, [], rfl, nofun⟩

theorem trans (first : w.Passed p u) (second : u.Passed p v) : w.Passed p v := by
  obtain ⟨eaten, cut, all⟩ := first.cut
  obtain ⟨more, cut', all'⟩ := second.cut
  refine ⟨second.stack.trans first.stack, eaten ++ more, ?_, List.forall_mem_append.mpr ⟨all, all'⟩⟩
  rw [cut, cut', List.append_assoc]

theorem mono (h : w.Passed p u) (weaker : ∀ k, p k → q k) : w.Passed q u := by
  obtain ⟨eaten, cut, all⟩ := h.cut
  exact ⟨h.stack, eaten, cut, fun t ht => weaker _ (all t ht)⟩

theorem take (ht : w.tokens.head? = some t) (kind : p t.kind) :
    w.Passed p { w with tokens := w.tokens.drop 1 } := by
  obtain ⟨r, hr⟩ := List.head?_eq_some_iff.mp ht
  exact ⟨rfl, [t], by rw [hr]; rfl, List.forall_mem_singleton.mpr kind⟩

end Walker.Passed

/-- A walker that has taken no scalar. -/
abbrev Walker.Quiet (w u : Walker) : Prop :=
  w.Passed (·.isScalar = false) u

theorem Draws.after (h : w.Quiet u) (draws : Draws u v) : Draws w v := by
  obtain ⟨eaten, cut, none⟩ := h.cut
  cases draws with
  | silent more cut' none' running =>
    refine .silent (eaten ++ more) ?_ (List.forall_mem_append.mpr ⟨none, none'⟩) running
    rw [cut, cut', List.append_assoc]
  | scalar more t cut' none' inside =>
    refine .scalar (eaten ++ more) t ?_ (List.forall_mem_append.mpr ⟨none, none'⟩) inside
    rw [cut, cut', List.append_assoc]

theorem Draws.of_tokens (same : u.tokens = w.tokens) (draws : Draws u v) : Draws w v := by
  cases draws with
  | silent eaten cut none running => exact .silent eaten (same ▸ cut) none running
  | scalar eaten t cut none inside => exact .scalar eaten t (same ▸ cut) none inside

theorem Inside.running {state : State} {stack : List State} (h : Inside (state :: stack)) :
    state ≠ .finished := by
  rintro rfl
  cases h with
  | part part => cases part

theorem Inside.left {stack : List State} (h : Inside stack) :
    Inside (stack.headD .finished :: stack.drop 1) := by
  cases h with
  | document => exact .document
  | part part waits inside => exact .part part waits inside

/-! ## Nodes -/

theorem quiet_takeAnchor (props : Properties) :
    Meets (fun _ u => w.Quiet u) (takeAnchor props) w := by
  refine .bind (peeks_peek fun t peeks => ?_)
  split
  · next kind =>
    exact .bind (meets_take fun _ => .of_pure (.take (peeks.head kind rfl) (by rw [kind]; rfl)))
  · exact .of_pure (.refl w)

theorem quiet_takeTag (props : Properties) : Meets (fun _ u => w.Quiet u) (takeTag props) w := by
  refine .bind (peeks_peek fun t peeks => ?_)
  split
  · next kind =>
    exact .bind (meets_take fun _ => .of_pure (.take (peeks.head kind rfl) (by rw [kind]; rfl)))
  · exact .of_pure (.refl w)

theorem quiet_properties : Meets (fun _ u => w.Quiet u) properties w := by
  refine .bind (meets_next fun _ => .ite (fun _ => .bind ?_) fun _ => .bind ?_)
  · exact (quiet_takeTag _).mono fun p u h => (quiet_takeAnchor p).mono fun _ _ h' => h.trans h'
  · refine (quiet_takeAnchor _).mono fun p u h => .ite (fun _ => ?_) fun _ => .of_pure h
    exact (quiet_takeTag p).mono fun _ _ h' => h.trans h'

variable {k : Event.Kind} {start stop : Mark}

theorem draws_goto (state : State) (h : w.Quiet u) (running : state ≠ .finished) {e : Event} :
    Meets (fun _ v => Draws w v) (do goto state; return e) u := by
  obtain ⟨eaten, cut, none⟩ := h.cut
  exact .bind (.of_modify (.of_pure (.silent eaten cut none running)))

theorem draws_leave (h : w.Quiet u) (inside : Inside w.stack) {e : Event} :
    Meets (fun _ v => Draws w v) (do leave; return e) u := by
  obtain ⟨eaten, cut, none⟩ := h.cut
  exact .bind (.of_modify (.of_pure (.silent eaten cut none (h.stack ▸ inside).left.running)))

theorem draws_leaveCollection (h : w.Quiet u) (inside : Inside w.stack) {e : Event} :
    Meets (fun _ v => Draws w v) (do leaveCollection; return e) u := by
  obtain ⟨eaten, cut, none⟩ := h.cut
  exact .bind (.bind (.of_modify (.of_modify (.of_pure
    (.silent eaten cut none (h.stack ▸ inside).left.running)))))

theorem draws_content (h : w.Quiet u) (inside : Inside w.stack) (block : Bool) (props : Properties)
    (name : Option Text) :
    Meets (fun _ v => Draws w v) (node.content block props name t start stop) u :=
  .ite (fun _ => draws_leave h inside) fun _ => meets_fail

theorem draws_node (inside : Inside w.stack) (block bare : Bool) :
    Meets (fun _ u => Draws w u) (node block bare) w := by
  refine .bind (peeks_peek fun t peeks => ?_)
  split
  · next kind =>
    refine .bind (meets_take fun _ => draws_leave (.take (peeks.head kind rfl) ?_) inside)
    rw [kind]
    rfl
  · refine .bind (quiet_properties.mono fun props u h => .bind ((stays_fullName props).mono ?_))
    rintro name v rfl
    refine .bind (peeks_peek fun t peeks => ?_)
    dsimp only
    split
    · exact .ite (fun _ => draws_goto .bareSequenceEntry h nofun) fun _ => draws_content h inside ..
    · next kind =>
      refine .bind (meets_take fun _ => .bind (.of_modify (.of_pure ?_)))
      obtain ⟨eaten, cut, none⟩ := h.cut
      obtain ⟨r, hr⟩ := List.head?_eq_some_iff.mp (peeks.head kind rfl)
      refine .scalar eaten t ?_ none (h.stack ▸ inside).left
      rw [cut, hr]
      rfl
    · exact draws_goto .flowSequenceFirst h nofun
    · exact draws_goto .flowMappingFirst h nofun
    · exact .ite (fun _ => draws_goto .blockSequenceFirst h nofun) fun _ => draws_content h inside ..
    · exact .ite (fun _ => draws_goto .blockMappingFirst h nofun) fun _ => draws_content h inside ..
    · exact draws_content h inside ..

theorem draws_nodeOrEmpty {after : State} (below : Inside (after :: w.stack))
    (ends : Token.Kind → Bool) (bare block : Bool) (m : Mark) :
    Meets (fun _ u => Draws w u) (nodeOrEmpty ends bare block after m) w := by
  refine .bind (meets_peek fun t _ =>
    .ite (fun _ => draws_goto after (.refl w) below.running) fun _ => .bind (.of_modify ?_))
  exact (draws_node (w := { w with stack := after :: w.stack }) below block bare).mono
    fun _ _ => .of_tokens rfl

/-! ## Documents -/

theorem passed_skipEnds (steps : Nat) :
    Meets (fun _ u => w.Passed (· = .documentEnd) u) (skipEnds steps) w := by
  induction steps generalizing w with
  | zero => exact .of_pure (.refl w)
  | succ steps ih =>
    refine .bind (peeks_next fun t peeks => .ite (fun ends => ?_) fun _ => .of_pure (.refl w))
    have kind : t.kind = .documentEnd := by simpa using ends
    have taken : w.Passed (· = .documentEnd) { w with tokens := w.tokens.drop 1 } :=
      .take (peeks.head kind rfl) kind
    exact .bind (meets_take fun _ => ih.mono fun _ _ h => taken.trans h)

theorem quiet_directives (steps : Nat) (versioned : Bool) (handles : List (Text × Text)) :
    Meets (fun _ u => w.Quiet u) (directives steps versioned handles) w := by
  induction steps generalizing w versioned handles with
  | zero => exact .of_pure (.refl w)
  | succ steps ih =>
    refine .bind (peeks_peek fun t peeks => ?_)
    split
    · next d kind =>
      have taken : w.Quiet { w with tokens := w.tokens.drop 1 } :=
        .take (peeks.head kind rfl) (by rw [kind]; rfl)
      have rest (versioned : Bool) (handles : List (Text × Text)) :
          Meets (fun _ u => w.Quiet u) (directives steps versioned handles)
            { w with tokens := w.tokens.drop 1 } :=
        (ih versioned handles).mono fun _ _ h => taken.trans h
      refine .bind (meets_take fun _ => ?_)
      split
      · exact .ite (fun _ => .bind meets_fail) fun _ =>
          .ite (fun _ => .bind meets_fail) fun _ => rest ..
      · exact .ite (fun _ => .bind meets_fail) fun _ => rest ..
      · exact rest ..
    · exact .of_pure (.refl w)

variable {src : Text} {tokens : List Token} {position : Nat}

theorem draws_nextDocument (along : w.Along tokens position) (orderly : Orderly src tokens)
    (start : w.state = .firstDocument ∨ w.state = .nextDocument) :
    Meets (fun _ u => Draws w u ∨ Finishes w u) nextDocument w := by
  have stays := (along_skipEnds orderly (w.tokens.length + 1) along).and (passed_skipEnds _)
  refine .bind (.of_get (.bind (stays.mono ?_)))
  rintro _ u ⟨⟨along, -⟩, skipped⟩
  refine .bind (along.peek fun t ht _ => .ite (fun ends => ?_) fun _ => ?_)
  · have kind : t.kind = .streamEnd := by simpa using ends
    refine .bind (takes_take ht (.bind (.of_modify (.of_pure (.inr ⟨start, rfl, ?_⟩)))))
    obtain ⟨eaten, cut, all⟩ := skipped.cut
    obtain ⟨r, hr⟩ := List.head?_eq_some_iff.mp ht
    refine ⟨eaten, t, ?_, kind, all⟩
    rw [cut, hr]
    rfl
  · have quiet : w.Quiet u := skipped.mono fun k ends => by rw [ends]; rfl
    refine .bind (.of_get (.bind ((quiet_directives _ _ _).mono fun handles v h => ?_)))
    refine .bind (peeks_peek fun mark peeks => .ite (fun _ => .bind meets_fail) fun opens => ?_)
    have kind : mark.kind = .documentStart := by simpa using opens
    have taken : w.Quiet { v with tokens := v.tokens.drop 1 } :=
      (quiet.trans h).trans (.take (peeks.head kind rfl) (by rw [kind]; rfl))
    obtain ⟨eaten, cut, none⟩ := taken.cut
    exact .bind (meets_take fun _ => .bind (.of_modify (.bind (.of_modify (.bind (.of_modify
      (.of_pure (.inl (.silent eaten cut none nofun)))))))))

theorem draws_firstDocument (along : w.Along tokens position) (orderly : Orderly src tokens)
    (start : w.state = .firstDocument) :
    Meets (fun _ u => Draws w u ∨ Finishes w u) firstDocument w := by
  refine .bind (meets_peek fun t _ =>
    .ite (fun _ => draws_nextDocument along orderly (.inl start)) fun _ => ?_)
  exact .bind (.of_modify (.bind (.of_modify (.bind (.of_modify
    (.of_pure (.inl (.silent [] rfl nofun nofun))))))))

theorem draws_documentEnd : Meets (fun _ u => Draws w u) documentEnd w := by
  refine .bind (peeks_peek fun t peeks => .bind (.of_modify (.ite (fun ends => ?_) fun _ => ?_)))
  · have kind : t.kind = .documentEnd := by simpa using ends
    obtain ⟨r, hr⟩ := List.head?_eq_some_iff.mp (peeks.head kind rfl)
    refine .bind (meets_take fun _ => .of_pure (.silent [t] ?_ ?_ nofun))
    · rw [hr]
      rfl
    · rw [List.forall_mem_singleton, kind]
      rfl
  · exact .of_pure (.silent [] rfl nofun nofun)

theorem draws_documentContent (inside : Inside w.stack) :
    Meets (fun _ u => Draws w u) documentContent w := by
  refine .bind (meets_peek fun t _ => ?_)
  split
  all_goals first
    | exact draws_leave (.refl w) inside
    | exact draws_node inside true false

/-! ## Collections -/

/-- A part of a collection behind its first token. -/
theorem draws_part {after : State} (below : Inside (after :: w.stack))
    (ht : w.tokens.head? = some t) (kind : t.kind.isScalar = false) (ends : Token.Kind → Bool)
    (bare block : Bool) (m : Token → Mark) :
    Meets (fun _ u => Draws w u) (do nodeOrEmpty ends bare block after (m (← take))) w := by
  refine .bind (meets_take fun t => ?_)
  exact (draws_nodeOrEmpty (w := { w with tokens := w.tokens.drop 1 }) below ends bare block
    (m t)).mono fun _ _ => .after (.take ht kind)

/-- The end of a collection, with its last token. -/
theorem draws_end (inside : Inside w.stack) (ht : w.tokens.head? = some t)
    (kind : t.kind.isScalar = false) (e : Token → Event) :
    Meets (fun _ u => Draws w u) (do let t ← take; leaveCollection; return e t) w :=
  .bind (meets_take fun _ => draws_leaveCollection (.take ht kind) inside)

theorem draws_blockSequenceEntry (inside : Inside w.stack) :
    Meets (fun _ u => Draws w u) blockSequenceEntry w := by
  refine .bind (peeks_peek fun t peeks => ?_)
  split
  · next kind =>
    exact draws_part (.part rfl rfl inside) (peeks.head kind rfl) (by rw [kind]; rfl) ..
  · next kind => exact draws_end inside (peeks.head kind rfl) (by rw [kind]; rfl) _
  · exact .bind (.bind (.of_get (.of_pure meets_fail)))

theorem draws_bareSequenceEntry (inside : Inside w.stack) :
    Meets (fun _ u => Draws w u) bareSequenceEntry w := by
  refine .bind (peeks_peek fun t peeks => ?_)
  split
  · next kind =>
    exact draws_part (.part rfl rfl inside) (peeks.head kind rfl) (by rw [kind]; rfl) ..
  · exact draws_leave (.refl w) inside

theorem draws_blockMappingKey (inside : Inside w.stack) :
    Meets (fun _ u => Draws w u) blockMappingKey w := by
  refine .bind (peeks_peek fun t peeks => ?_)
  split
  · next kind =>
    exact draws_part (.part rfl rfl inside) (peeks.head kind rfl) (by rw [kind]; rfl) ..
  · next kind => exact draws_end inside (peeks.head kind rfl) (by rw [kind]; rfl) _
  · exact .bind (.bind (.of_get (.of_pure meets_fail)))

/-- A part with its first token, or left out. -/
theorem draws_valueOr {next : State} (below : Inside (next :: w.stack)) {ends : Token.Kind → Bool}
    {bare block : Bool} :
    Meets (fun _ u => Draws w u)
      (do
        let t ← peek
        match t.kind with
        | .value =>
          let _ ← take
          nodeOrEmpty ends bare block next t.stop
        | _ =>
          goto next
          return empty t.start) w := by
  refine .bind (peeks_peek fun t peeks => ?_)
  split
  · next kind => exact draws_part below (peeks.head kind rfl) (by rw [kind]; rfl) ..
  · exact draws_goto next (.refl w) below.running

theorem quiet_takeComma (first : Bool) (cause : Token.Kind → ParseFault) :
    Meets (fun _ u => w.Quiet u) (takeComma first cause) w := by
  refine .ite (fun _ => .of_pure (.refl w)) fun _ => .bind (peeks_peek fun t peeks => ?_)
  split
  · next kind =>
    exact .bind (meets_take fun _ => .of_pure (.take (peeks.head kind rfl) (by rw [kind]; rfl)))
  · exact .bind (.bind (.of_get (.of_pure meets_fail)))

theorem draws_flowNode (after : State) (below : Inside (after :: w.stack)) :
    Meets (fun _ u => Draws w u) (do thenTo after; node false false) w :=
  .bind (.of_modify ((draws_node (w := { w with stack := after :: w.stack }) below false false).mono
    fun _ _ => .of_tokens rfl))

theorem draws_flowEnd (inside : Inside w.stack) (ht : w.tokens.head? = some t)
    (kind : t.kind.isScalar = false) (k : Event.Kind) :
    Meets (fun _ u => Draws w u) (flowEnd k) w :=
  draws_end inside ht kind fun t => ⟨k, t.start, t.stop⟩

theorem draws_flowSequenceEntry (inside : Inside w.stack) (first : Bool) :
    Meets (fun _ u => Draws w u) (flowSequenceEntry first) w := by
  refine .bind (peeks_next fun t peeks => .ite (fun ends => ?_) fun _ => .bind ?_)
  · have kind : t.kind = .flowSequenceEnd := by simpa using ends
    exact draws_flowEnd inside (peeks.head kind rfl) (by rw [kind]; rfl) _
  · refine (quiet_takeComma first _).mono fun _ u quiet => ?_
    rw [← quiet.stack] at inside
    refine .bind (peeks_peek fun t peeks => ?_)
    split
    · exact draws_goto .pairKey quiet nofun
    · next kind =>
      exact (draws_flowEnd inside (peeks.head kind rfl) (by rw [kind]; rfl) _).mono
        fun _ _ => .after quiet
    · exact (draws_flowNode .flowSequenceEntry (.part rfl rfl inside)).mono fun _ _ => .after quiet

theorem draws_flowMappingKey (inside : Inside w.stack) (first : Bool) :
    Meets (fun _ u => Draws w u) (flowMappingKey first) w := by
  refine .bind (peeks_next fun t peeks => .ite (fun ends => ?_) fun _ => .bind ?_)
  · have kind : t.kind = .flowMappingEnd := by simpa using ends
    exact draws_flowEnd inside (peeks.head kind rfl) (by rw [kind]; rfl) _
  · refine (quiet_takeComma first _).mono fun _ u quiet => ?_
    rw [← quiet.stack] at inside
    refine .bind (peeks_peek fun t peeks => ?_)
    split
    · next kind =>
      exact (draws_part (.part rfl rfl inside) (peeks.head kind rfl) (by rw [kind]; rfl) ..).mono
        fun _ _ => .after quiet
    · next kind =>
      exact (draws_flowEnd inside (peeks.head kind rfl) (by rw [kind]; rfl) _).mono
        fun _ _ => .after quiet
    · exact (draws_flowNode .flowMappingNoValue (.part rfl rfl inside)).mono fun _ _ => .after quiet

/-- The first part of a collection, behind the token that opens it. -/
theorem draws_opening {kind : Token.Kind} (pending : w.Pending tokens position kind)
    (other : kind.isScalar = false) {x : Step Event}
    (next : ∀ u : Walker, u.stack = w.stack → Meets (fun _ v => Draws u v) x u) :
    Meets (fun _ u => Draws w u) (do opening; x) w := by
  obtain ⟨-, t, ht, same, -⟩ := pending
  refine .bind (.bind (takes_take ht (.of_modify ?_)))
  refine (next { w with tokens := w.tokens.drop 1, begun := t.start :: w.begun } rfl).mono ?_
  intro _ v draws
  have taken : w.Quiet { w with tokens := w.tokens.drop 1 } := .take ht (by rw [same]; exact other)
  exact .after taken (draws.of_tokens (by rfl))

/-! ## One step -/

/-- A step takes a scalar last, or it takes the end of the stream between documents. -/
theorem draws_step (orderly : Orderly src tokens) (onward : w.Onward tokens position)
    (standing : w.Standing) (more : w.state ≠ .finished) :
    Meets (fun _ u => Draws w u ∨ Finishes w u) step w := by
  have left {x : Step Event} (draws : Meets (fun _ u => Draws w u) x w) :
      Meets (fun _ u => Draws w u ∨ Finishes w u) x w := draws.mono fun _ _ => .inl
  obtain ⟨source, rest, fault, state, stack, begun, handles⟩ := w
  have nested : state.Over stack := standing.nested
  let here : State → Walker := fun state => ⟨source, rest, fault, state, stack, begun, handles⟩
  refine .bind (.of_get ?_)
  cases state with
  | stream =>
    obtain ⟨-, t, ht, kind⟩ := onward
    refine left (.bind (takes_take ht ?_))
    exact draws_goto .firstDocument (.take ht (by rw [kind]; rfl)) nofun
  | firstDocument => exact draws_firstDocument onward orderly rfl
  | nextDocument => exact draws_nextDocument onward orderly (.inr rfl)
  | documentContent =>
    have inside : Inside stack := by rw [show stack = _ from nested]; exact .document
    exact left (draws_documentContent inside)
  | documentEnd => exact left draws_documentEnd
  | blockNode =>
    have inside : Inside stack := by rw [show stack = _ from nested]; exact .document
    exact left (draws_node inside true false)
  | blockSequenceFirst =>
    exact left (draws_opening onward rfl fun u same =>
      draws_blockSequenceEntry (same ▸ nested : Inside u.stack))
  | blockSequenceEntry => exact left (draws_blockSequenceEntry nested)
  | bareSequenceEntry => exact left (draws_bareSequenceEntry nested)
  | blockMappingFirst =>
    exact left (draws_opening onward rfl fun u same =>
      draws_blockMappingKey (same ▸ nested : Inside u.stack))
  | blockMappingKey => exact left (draws_blockMappingKey nested)
  | blockMappingValue =>
    exact left (draws_valueOr (w := here .blockMappingValue) (.part rfl rfl nested))
  | flowSequenceFirst =>
    exact left (draws_opening onward rfl fun u same =>
      draws_flowSequenceEntry (same ▸ nested : Inside u.stack) true)
  | flowSequenceEntry =>
    exact left (draws_flowSequenceEntry (w := here .flowSequenceEntry) nested false)
  | pairKey =>
    obtain ⟨-, t, ht, kind, -⟩ := onward
    exact left (draws_part (w := here .pairKey) (.part rfl rfl nested) ht (by rw [kind]; rfl) ..)
  | pairValue => exact left (draws_valueOr (w := here .pairValue) (.part rfl rfl nested))
  | pairEnd =>
    exact left (.bind (meets_peek fun _ _ => draws_goto .flowSequenceEntry (.refl _) nofun))
  | flowMappingFirst =>
    exact left (draws_opening onward rfl fun u same =>
      draws_flowMappingKey (same ▸ nested : Inside u.stack) true)
  | flowMappingKey => exact left (draws_flowMappingKey (w := here .flowMappingKey) nested false)
  | flowMappingValue =>
    exact left (draws_valueOr (w := here .flowMappingValue) (.part rfl rfl nested))
  | flowMappingNoValue =>
    exact left (.bind (.of_modify (.bind (meets_peek fun _ _ =>
      .of_pure (.silent [] rfl nofun nofun)))))
  | finished => exact absurd rfl more

/-! ## Behind a scalar -/

theorem separates_takeComma (cause : Token.Kind → ParseFault) :
    Meets (fun _ _ => ∃ t ∈ w.tokens.head?, t.kind.separates = true) (takeComma false cause) w := by
  refine .bind (peeks_peek fun t peeks => ?_)
  split
  · next kind =>
    exact .bind (meets_take fun _ => .of_pure ⟨t, peeks.head kind rfl, by rw [kind]; rfl⟩)
  · exact .bind (.bind (.of_get (.of_pure meets_fail)))

/-- What a step comes to from a state behind an entry: it takes what separates, or nothing. -/
def Separates (w u : Walker) : Prop :=
  (∃ t ∈ w.tokens.head?, t.kind.separates = true) ∨
    u.tokens = w.tokens ∧ u.state.isDue = true ∧ u.state.rank < w.state.rank

/-- An entry or the end, in brackets or braces. -/
theorem separates_entry (closer : Token.Kind) (closes : closer.separates = true)
    (more : (closer != .streamEnd) = true) {cause : Token.Kind → ParseFault} {ends next : Step Event} :
    Meets (fun _ u => Separates w u)
      (do
        if ← Walk.next (· == closer) then ends
        else
          takeComma false cause
          next) w := by
  refine .bind (peeks_next fun t peeks => .ite (fun ends => ⟨fun _ _ _ => .inl ?_⟩) fun _ => .bind ?_)
  · have kind : t.kind = closer := by simpa using ends
    exact ⟨t, peeks.head kind more, by rw [kind]; exact closes⟩
  · exact (separates_takeComma cause).mono fun _ _ first => ⟨fun _ _ _ => .inl first⟩

/-- A part with its colon, or left out. -/
theorem separates_valueOr (next : State) (due : next.isDue = true) (less : next.rank < w.state.rank)
    {ends : Token.Kind → Bool} {bare block : Bool} :
    Meets (fun _ u => Separates w u)
      (do
        let t ← peek
        match t.kind with
        | .value =>
          let _ ← take
          nodeOrEmpty ends bare block next t.stop
        | _ =>
          goto next
          return empty t.start) w := by
  refine .bind (peeks_peek fun t peeks => ?_)
  split
  · next kind => exact ⟨fun _ _ _ => .inl ⟨t, peeks.head kind rfl, by rw [kind]; rfl⟩⟩
  · exact .bind (.of_modify (.of_pure (.inr ⟨rfl, due, less⟩)))

theorem separates_step (due : w.state.isDue = true) : Meets (fun _ u => Separates w u) step w := by
  obtain ⟨source, rest, fault, state, stack, begun, handles⟩ := w
  refine .bind (.of_get ?_)
  cases state with
  | flowSequenceEntry => exact separates_entry .flowSequenceEnd rfl rfl
  | flowMappingKey => exact separates_entry .flowMappingEnd rfl rfl
  | flowMappingValue => exact separates_valueOr .flowMappingKey rfl (Nat.lt_succ_self _)
  | flowMappingNoValue =>
    exact .bind (.of_modify (.bind (meets_peek fun _ _ =>
      .of_pure (.inr ⟨rfl, rfl, Nat.lt_succ_self _⟩))))
  | pairValue => exact separates_valueOr .pairEnd rfl (Nat.lt_succ_self _)
  | pairEnd =>
    exact .bind (meets_peek fun _ _ =>
      .bind (.of_modify (.of_pure (.inr ⟨rfl, rfl, Nat.lt_succ_self _⟩))))
  | _ => cases due

/-- Behind an entry comes a token that separates, if there is no fault. -/
theorem separates_events (steps : Nat) (due : w.state.isDue = true) (enough : w.state.rank ≤ steps)
    (sound : (events steps w).fault = none) :
    ∃ t ∈ w.tokens.head?, t.kind.separates = true := by
  induction steps generalizing w with
  | zero =>
    generalize w.state = state at due enough
    cases state <;> first | exact Bool.noConfusion due | exact absurd enough (by decide)
  | succ steps ih =>
    have running : w.state ≠ .finished := fun ends => by rw [ends] at due; cases due
    obtain ⟨e, u, run, -, rest⟩ := events_succ running sound
    rcases (separates_step due).run e u run with first | ⟨same, due, less⟩
    · exact first
    · exact same ▸ ih due (by omega) rest

/-! ## The whole walk -/

theorem Walker.Seen.unique {n m : Nest} (h : w.Seen tokens n) (h' : w.Seen tokens m) : n = m := by
  obtain ⟨before, cut, run⟩ := h
  obtain ⟨before', cut', run'⟩ := h'
  obtain rfl : before = before' := List.append_cancel_right (cut.symm.trans cut')
  exact Option.some.inj (run.symm.trans run')

/-- A state with an entry or a key before it in brackets. -/
theorem due_of_inside {n : Nest} {columns : List (Option Nat)} (framed : w.Framed tokens columns)
    (seen : w.Seen tokens n) (inside : Inside (w.state :: w.stack)) (deep : n.depth ≠ 0) :
    w.state.isDue = true := by
  obtain ⟨m, seen', framed⟩ := framed
  obtain rfl := seen.unique seen'
  have frames : Frames (w.state :: w.stack) n columns := by
    generalize w.state = state at framed inside ⊢
    generalize w.stack = stack at framed inside ⊢
    cases inside with
    | document => exact framed
    | part part waits below =>
      cases state <;> first
        | exact framed
        | exact Bool.noConfusion part
        | exact Bool.noConfusion waits
  generalize w.state = state at frames ⊢
  generalize w.stack = stack at frames
  cases frames with
  | flow part => cases state <;> first | rfl | cases part
  | pair part => rcases part with rfl | rfl <;> rfl
  | _ => exact absurd rfl deep

/-- Tokens behind which nothing is wrong between entries, if so much is open before them. -/
def Separated (n : Nest) (tokens : List Token) : Prop :=
  ∀ before k next after, tokens = before ++ k :: next :: after → k.kind.isScalar = true →
    ∀ m, n.run (before ++ [k]) = some m → m.depth ≠ 0 → next.kind.separates = true

theorem Separated.cons {n m : Nest} (took : n.take? t = some m)
    (first : t.kind.isScalar = true → m.depth ≠ 0 → ∀ next ∈ tokens.head?, next.kind.separates = true)
    (h : Separated m tokens) : Separated n (t :: tokens) := by
  intro before k next after cut scalar l run deep
  cases before with
  | nil =>
    obtain ⟨rfl, rfl⟩ := List.cons_eq_cons.mp cut
    rw [List.nil_append, Nest.run_singleton, took] at run
    cases run
    exact first scalar deep next rfl
  | cons x before =>
    obtain ⟨rfl, rfl⟩ := List.cons_eq_cons.mp cut
    refine h before k next after rfl scalar l ?_ deep
    rw [List.cons_append, ← List.singleton_append, Nest.run_append, Nest.run_singleton, took] at run
    exact run

theorem Separated.append {n m : Nest} {eaten : List Token}
    (none : ∀ t ∈ eaten, t.kind.isScalar = false) (run : n.run eaten = some m)
    (h : Separated m tokens) : Separated n (eaten ++ tokens) := by
  induction eaten generalizing n with
  | nil =>
    cases run
    exact h
  | cons t eaten ih =>
    obtain ⟨quiet, none⟩ := List.forall_mem_cons.mp none
    rw [← List.singleton_append, Nest.run_append, Nest.run_singleton] at run
    obtain ⟨l, took, run⟩ := Option.bind_eq_some_iff.mp run
    exact .cons took (fun scalar => by rw [quiet] at scalar; cases scalar) (ih none run)

theorem Separated.nil (n : Nest) : Separated n [] := by
  intro before k next after cut
  exact absurd cut (by simp)

theorem run_of_inert (n : Nest) (inert : ∀ t ∈ tokens, t.kind.isInert = true) :
    n.run tokens = some n := by
  induction tokens with
  | nil => rfl
  | cons t tokens ih =>
    obtain ⟨first, inert⟩ := List.forall_mem_cons.mp inert
    rw [← List.nil_append (t :: tokens), Nest.run_insert first, List.nil_append, ih inert]

/-- Between documents nothing is open. -/
theorem nothing_of_start {n : Nest} {columns : List (Option Nat)} (framed : w.Framed tokens columns)
    (seen : w.Seen tokens n) (start : w.state = .firstDocument ∨ w.state = .nextDocument) :
    n = {} := by
  obtain ⟨m, seen', framed⟩ := framed
  obtain rfl := seen.unique seen'
  rcases start with state | state <;>
  · rw [state] at framed
    exact framed.2.1

/-- What a walker reaches by taking tokens. -/
theorem Walker.Seen.reach {n m : Nest} {eaten : List Token} (seen : w.Seen tokens n)
    (cut : w.tokens = eaten ++ u.tokens) (seen' : u.Seen tokens m) : n.run eaten = some m := by
  obtain ⟨before, whole, run⟩ := seen
  obtain ⟨before', whole', run'⟩ := seen'
  rw [cut, ← List.append_assoc] at whole
  obtain rfl : before ++ eaten = before' := List.append_cancel_right (whole.symm.trans whole')
  rwa [Nest.run_append, run] at run'

/-- A walk to its end without a fault: what it takes is separated, and closed at the end of the
stream. -/
theorem delimited_events (orderly : Orderly src tokens) (last : Scan.Scanner.EndsLast tokens)
    (steps : Nat) {columns : List (Option Nat)} {n : Nest} (onward : w.Onward tokens position)
    (standing : w.Standing) (framed : w.Framed tokens columns) (seen : w.Seen tokens n)
    (enough : w.weight ≤ steps) (running : w.state ≠ .finished)
    (sound : (events steps w).fault = none) :
    Separated n w.tokens ∧ n.run w.tokens = some {} ∧ ∃ t ∈ w.tokens, t.kind = .streamEnd := by
  induction steps generalizing w position columns n with
  | zero =>
    have light : 8 * w.tokens.length + (w.state.rank + ranks w.stack) ≤ 0 := enough
    have rank : w.state.rank = 0 := by omega
    generalize w.state = state at rank running
    cases state <;> first | exact absurd rfl running | cases rank
  | succ steps ih =>
    obtain ⟨e, u, run, -, rest⟩ := events_succ running sound
    have turns := (turns_step standing running).run e u run
    have turn := (turn_step orderly framed running).run e u run
    have goes := (goes_step orderly onward running).run e u run
    have lighter := turns.weight
    obtain ⟨m, seen', -⟩ := turn.framed
    have further (running : u.state ≠ .finished) :=
      ih goes.onward turns.standing turn.framed seen' (by omega) running rest
    rcases (draws_step orderly onward standing running).run e u run with
      (⟨eaten, cut, none, going⟩ | ⟨eaten, t, cut, none, inside⟩) |
        ⟨start, -, eaten, t, cut, kind, ends⟩
    · obtain ⟨separated, closed, x, hx, kind⟩ := further going
      have reach := seen.reach cut seen'
      rw [cut]
      exact ⟨separated.append none reach, by rw [Nest.run_append, reach]; exact closed,
        x, List.mem_append_right _ hx, kind⟩
    · obtain ⟨separated, closed, x, hx, kind⟩ := further inside.running
      have reach : n.run (eaten ++ [t]) = some m := seen.reach (by rw [cut]; simp) seen'
      rw [Nest.run_append] at reach
      obtain ⟨l, reach, took⟩ := Option.bind_eq_some_iff.mp reach
      rw [Nest.run_singleton] at took
      have due (deep : m.depth ≠ 0) : u.state.isDue = true :=
        due_of_inside turn.framed seen' inside deep
      have behind (deep : m.depth ≠ 0) : ∃ x ∈ u.tokens.head?, x.kind.separates = true := by
        refine separates_events steps (due deep) (Nat.le_trans ?_ (by omega : u.weight ≤ steps)) rest
        exact Nat.le_trans (Nat.le_add_right _ _) (Nat.le_add_left _ _)
      rw [cut]
      refine ⟨.append none reach (.cons took (fun _ deep next hn => ?_) separated), ?_, ?_⟩
      · obtain ⟨y, hy, separates⟩ := behind deep
        cases hn.symm.trans hy
        exact separates
      · rw [← List.singleton_append, Nest.run_append, reach, Option.bind_some, Nest.run_append,
          Nest.run_singleton, took]
        exact closed
      · exact ⟨x, by simp [hx], kind⟩
    · obtain rfl : n = {} := nothing_of_start framed seen start
      have nothing : u.tokens = [] := by
        obtain ⟨before, whole, -⟩ := seen
        exact last (before ++ eaten) t u.tokens (by rw [whole, cut, List.append_assoc]) kind
      have inert : ∀ x ∈ eaten ++ [t], x.kind.isInert = true := by
        rw [List.forall_mem_append, List.forall_mem_singleton, kind]
        exact ⟨fun x hx => by rw [ends x hx]; rfl, rfl⟩
      have none : ∀ x ∈ eaten ++ [t], x.kind.isScalar = false := by
        rw [List.forall_mem_append, List.forall_mem_singleton, kind]
        exact ⟨fun x hx => by rw [ends x hx]; rfl, rfl⟩
      have reach := run_of_inert {} inert
      rw [cut, nothing]
      exact ⟨List.append_nil (eaten ++ [t]) ▸ .append none reach (.nil _), reach, t, by simp, kind⟩

end

end Walk

namespace EventFeed

/-- Tokens with events up to the end are delimited, and end without a fault. -/
theorem delimited_ofText {s : Text} (sound : (ofText s).fault = none) :
    Delimited (TokenFeed.ofText s).items ∧ (TokenFeed.ofText s).fault = none := by
  obtain ⟨more, items⟩ := TokenFeed.items_ofText s
  obtain ⟨last, whole⟩ := TokenFeed.endsLast_ofText s
  let w : Walk.Walker :=
    { source := s, tokens := (TokenFeed.ofText s).items, fault := (TokenFeed.ofText s).fault }
  have along : w.Along (TokenFeed.ofText s).items 0 :=
    ⟨List.suffix_refl _, (TokenFeed.shown_ofText s).2, fun _ _ => Nat.zero_le _, nofun⟩
  have first : ∃ t ∈ w.tokens.head?, t.kind = .streamStart :=
    ⟨TokenFeed.start, congrArg List.head? items, rfl⟩
  have seen : w.Seen (TokenFeed.ofText s).items {} := ⟨[], rfl, rfl⟩
  have framed : w.Framed (TokenFeed.ofText s).items [] :=
    ⟨{}, seen, rfl, rfl, rfl, TokenFeed.isInert_head s⟩
  have enough : w.weight ≤ 8 * (TokenFeed.ofText s).items.length + 16 := by
    show 8 * (TokenFeed.ofText s).items.length + 7 ≤ _
    omega
  obtain ⟨separated, closed, ends⟩ := Walk.delimited_events (w := w)
    (TokenFeed.orderly_ofText s) last _ ⟨along, first⟩ ⟨rfl, nofun⟩ framed seen enough nofun sound
  refine ⟨⟨fun n run => ?_, ?_⟩, whole ends⟩
  · cases closed.symm.trans run
    rfl
  · rintro before k next after cut ⟨text, quoting, kind⟩ n run deep
    exact separated before k next after cut (by rw [kind]; rfl) n run deep

end EventFeed

end YamlEdit
