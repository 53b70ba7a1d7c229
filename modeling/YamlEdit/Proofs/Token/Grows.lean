import YamlEdit.Proofs.Token.Whole

/-!
# The queue grows

A fetch appends tokens to the queue, and puts in those that start a key in front of others. So no
token is lost while none is taken, what comes first in the queue stays there unless a key starts with
it, and the end of the stream comes last.
-/

namespace YamlEdit

/-- Whether a token may be put in front of others, where a key starts. -/
def Token.Kind.opensKey : Token.Kind → Bool
  | .key | .blockMappingStart => true
  | _ => false

/-- Whether a token comes behind an entry of brackets or braces, or behind a key there. -/
def Token.Kind.separates : Token.Kind → Bool
  | .flowEntry | .flowSequenceEnd | .flowMappingEnd | .value => true
  | _ => false

/-- A row of tokens as documents have it: brackets are closed, and in brackets an entry or a key that
is a scalar does not have another behind it. -/
structure Delimited (tokens : List Token) : Prop where
  closed : ∀ n, Nest.run {} tokens = some n → n.depth = 0
  separated : ∀ before k next after, tokens = before ++ k :: next :: after →
    (∃ text quoting, k.kind = .scalar text quoting) →
    ∀ n, Nest.run {} (before ++ [k]) = some n → n.depth ≠ 0 → next.kind.separates = true

namespace Scan.Scanner

/-- A queue that came to another without the end of the stream. -/
inductive Grows : List Token → List Token → Prop
  | refl (q : List Token) : Grows q q
  | append {q r : List Token} {t : Token} (h : Grows q r) (goes : t.kind ≠ .streamEnd) :
      Grows q (r ++ [t])
  | insert {q r : List Token} {t : Token} (h : Grows q r) (i : Nat) (opens : t.kind.opensKey = true) :
      Grows q (r.insertIdx i t)

variable {q r l : List Token} {s t u : Scanner}

namespace Grows

theorem trans (first : Grows q r) (second : Grows r l) : Grows q l := by
  induction second with
  | refl => exact first
  | append _ goes ih => exact .append ih goes
  | insert _ i opens ih => exact .insert ih i opens

/-- No token is lost. -/
theorem sublist (h : Grows q r) : q.Sublist r := by
  induction h with
  | refl => exact .refl q
  | append _ _ ih => exact ih.trans (List.sublist_append_left _ _)
  | insert _ i _ ih => exact ih.trans (List.sublist_insertIdx _ i _)

theorem not_streamEnd (h : Grows q r) (all : ∀ t ∈ q, t.kind ≠ .streamEnd) :
    ∀ t ∈ r, t.kind ≠ .streamEnd := by
  induction h with
  | refl => exact all
  | append _ goes ih => exact List.forall_mem_append.mpr ⟨ih, List.forall_mem_singleton.mpr goes⟩
  | insert _ i opens ih =>
    intro t ht
    rcases List.eq_or_mem_of_mem_insertIdx ht with rfl | ht
    · intro ends
      rw [ends] at opens
      cases opens
    · exact ih t ht

/-- What comes first stays there, unless a key starts with it. -/
theorem head (h : Grows q r) {p : Token.Kind → Prop} (keys : ∀ kind, kind.opensKey = true → p kind)
    (first : ∃ t ∈ q.head?, p t.kind) : ∃ t ∈ r.head?, p t.kind := by
  induction h with
  | refl => exact first
  | @append r x _ _ ih =>
    obtain ⟨t, ht, kind⟩ := ih
    exact ⟨t, by rw [List.head?_append, ht]; rfl, kind⟩
  | @insert r x _ i opens ih =>
    obtain ⟨t, ht, kind⟩ := ih
    cases i with
    | zero => exact ⟨x, by rw [List.insertIdx_zero, List.head?_cons]; rfl, keys _ opens⟩
    | succ i =>
      obtain ⟨r, rfl⟩ := List.head?_eq_some_iff.mp ht
      exact ⟨t, rfl, kind⟩

end Grows

/-! ## Steps of a fetch -/

theorem grows_takeTo (s : Scanner) {kind : Token.Kind} (rest : Text) (goes : kind ≠ .streamEnd) :
    Grows s.queue (s.takeTo kind rest).queue :=
  .append (.refl _) goes

theorem grows_endBlocks (s : Scanner) (column : Int) (outer : List Int) :
    Grows s.queue (s.endBlocks column outer).queue := by
  induction outer generalizing s with
  | nil => exact .refl _
  | cons around outer ih =>
    rw [endBlocks]
    split
    · have pushed : Grows s.queue (s.pushHere .blockEnd).queue := .append (.refl _) (by simp)
      exact pushed.trans (ih { s.pushHere .blockEnd with indent := around, outer := outer })
    · exact .refl _

theorem grows_unwind (s : Scanner) (column : Int) : Grows s.queue (s.unwind column).queue := by
  rw [unwind]
  split
  · exact grows_endBlocks s column _
  · exact .refl _

theorem grows_startBlock (s : Scanner) {kind : Token.Kind} (goes : kind ≠ .streamEnd) :
    Grows s.queue (s.startBlock kind).queue := by
  rw [startBlock]
  split
  · exact .append (.refl _) goes
  · exact .refl _

section Fetch

theorem grows_fetchDirective (h : s.fetchDirective = .ok t) : Grows s.queue t.queue := by
  rw [fetchDirective] at h
  obtain ⟨u, hu, h⟩ := bind_eq_ok.mp h
  refine (grows_unwind s (-1)).trans ?_
  rw [← queue_dropCandidate hu]
  split at h
  · cases h
  · cases h
    exact grows_takeTo u _ (by simp)

theorem grows_fetchSeparator {kind : Token.Kind} (goes : kind ≠ .streamEnd)
    (h : s.fetchSeparator kind = .ok t) : Grows s.queue t.queue := by
  rw [fetchSeparator] at h
  obtain ⟨u, hu, h⟩ := bind_eq_ok.mp h
  refine (grows_unwind s (-1)).trans ?_
  rw [← queue_dropCandidate hu]
  cases h
  exact .append (.refl _) goes

theorem grows_fetchOpening {kind : Token.Kind} (goes : kind ≠ .streamEnd)
    (h : s.fetchOpening kind = .ok t) : Grows s.queue t.queue := by
  rw [fetchOpening] at h
  obtain ⟨u, hu, h⟩ := bind_eq_ok.mp h
  rw [← queue_addCandidate hu]
  cases h
  exact .append (.refl _) goes

theorem grows_fetchClosing {kind : Token.Kind} (goes : kind ≠ .streamEnd)
    (h : s.fetchClosing kind = .ok t) : Grows s.queue t.queue := by
  rw [fetchClosing] at h
  obtain ⟨u, hu, h⟩ := bind_eq_ok.mp h
  rw [← queue_dropCandidate hu]
  cases h
  exact .append (.refl _) goes

theorem grows_fetchFlowEntry (h : s.fetchFlowEntry = .ok t) : Grows s.queue t.queue := by
  rw [fetchFlowEntry] at h
  obtain ⟨u, hu, h⟩ := bind_eq_ok.mp h
  have same : u.queue = s.queue := (queue_dropCandidate hu :)
  rw [← same]
  cases h
  exact .append (.refl _) (by simp)

/-- A token of one character that may start a block. -/
theorem grows_starts {kind block : Token.Kind} (goes : kind ≠ .streamEnd) (goes' : block ≠ .streamEnd)
    {a : Bool}
    (h : ({ s.startBlock block with keyAllowed := a }.dropCandidate >>= fun u =>
      pure (u.takeChars kind 1) : Step) = .ok t) : Grows s.queue t.queue := by
  obtain ⟨u, hu, h⟩ := bind_eq_ok.mp h
  have same : u.queue = (s.startBlock block).queue := (queue_dropCandidate hu :)
  refine (grows_startBlock s goes').trans ?_
  rw [← same]
  cases h
  exact .append (.refl _) goes

theorem grows_fetchBlockEntry (h : s.fetchBlockEntry = .ok t) : Grows s.queue t.queue := by
  rw [fetchBlockEntry] at h
  obtain ⟨-, h⟩ := guard_eq_ok.mp h
  exact grows_starts (by simp) (by simp) h

theorem grows_fetchKey (h : s.fetchKey = .ok t) : Grows s.queue t.queue := by
  rw [fetchKey] at h
  obtain ⟨-, h⟩ := guard_eq_ok.mp h
  exact grows_starts (by simp) (by simp) h

theorem grows_fetchValue (h : s.fetchValue = .ok t) : Grows s.queue t.queue := by
  rw [fetchValue] at h
  split at h
  · next k _ =>
    dsimp only at h
    cases h
    have key : Grows s.queue (s.forget.insertBefore k .key).queue := .insert (.refl _) _ rfl
    generalize s.forget.insertBefore k .key = u at key ⊢
    split
    · exact .append (key.insert _ rfl) (by simp)
    · exact .append key (by simp)
  · obtain ⟨-, h⟩ := guard_eq_ok.mp h
    exact grows_starts (by simp) (by simp) h

theorem grows_fetchName {of : ScanFault.Owner} {kind : Text → Token.Kind}
    (goes : ∀ name, kind name ≠ .streamEnd) (h : s.fetchName of kind = .ok t) :
    Grows s.queue t.queue := by
  rw [fetchName] at h
  obtain ⟨u, hu, h⟩ := bind_eq_ok.mp h
  rw [← queue_addCandidate hu]
  split at h
  · cases h
  · cases h
    exact .append (.refl _) (goes _)

theorem grows_fetchTag (h : s.fetchTag = .ok t) : Grows s.queue t.queue := by
  rw [fetchTag] at h
  obtain ⟨u, hu, h⟩ := bind_eq_ok.mp h
  rw [← queue_addCandidate hu]
  split at h
  · cases h
  · cases h
    exact .append (.refl _) (by simp)

theorem grows_fetchBlock {folds : Bool} (h : s.fetchBlock folds = .ok t) : Grows s.queue t.queue := by
  rw [fetchBlock] at h
  obtain ⟨u, hu, h⟩ := bind_eq_ok.mp h
  have same : u.queue = s.queue := (queue_dropCandidate hu :)
  rw [← same]
  split at h
  · cases h
  · cases h
    exact .append (.refl _) (by simp)

theorem grows_fetchQuoted {double : Bool} (h : s.fetchQuoted double = .ok t) :
    Grows s.queue t.queue := by
  rw [fetchQuoted] at h
  obtain ⟨u, hu, h⟩ := bind_eq_ok.mp h
  rw [← queue_addCandidate hu]
  split at h
  · cases h
  · cases h
    exact .append (.refl _) (by simp)

theorem grows_fetchPlain (h : s.fetchPlain = .ok t) : Grows s.queue t.queue := by
  rw [fetchPlain] at h
  obtain ⟨u, hu, h⟩ := bind_eq_ok.mp h
  rw [← queue_addCandidate hu]
  cases h
  exact .append (.refl _) (by simp)

theorem grows_fetchAt {c : Char} {r : Text} : s.fetchAt c r = .ok t → Grows s.queue t.queue := by
  rw [fetchAt]
  refine of_ite_eq (fun _ => grows_fetchDirective) fun _ => ?_
  refine of_ite_eq (fun _ => grows_fetchSeparator (by simp)) fun _ => ?_
  refine of_ite_eq (fun _ => grows_fetchSeparator (by simp)) fun _ => ?_
  refine of_ite_eq (fun _ => grows_fetchOpening (by simp)) fun _ => ?_
  refine of_ite_eq (fun _ => grows_fetchOpening (by simp)) fun _ => ?_
  refine of_ite_eq (fun _ => grows_fetchClosing (by simp)) fun _ => ?_
  refine of_ite_eq (fun _ => grows_fetchClosing (by simp)) fun _ => ?_
  refine of_ite_eq (fun _ => grows_fetchFlowEntry) fun _ => ?_
  refine of_ite_eq (fun _ => grows_fetchBlockEntry) fun _ => ?_
  refine of_ite_eq (fun _ => grows_fetchKey) fun _ => ?_
  refine of_ite_eq (fun _ => grows_fetchValue) fun _ => ?_
  refine of_ite_eq (fun _ => grows_fetchName fun _ => by simp) fun _ => ?_
  refine of_ite_eq (fun _ => grows_fetchName fun _ => by simp) fun _ => ?_
  refine of_ite_eq (fun _ => grows_fetchTag) fun _ => ?_
  refine of_ite_eq (fun _ => grows_fetchBlock) fun _ => ?_
  refine of_ite_eq (fun _ => grows_fetchBlock) fun _ => ?_
  refine of_ite_eq (fun _ => grows_fetchQuoted) fun _ => ?_
  refine of_ite_eq (fun _ => grows_fetchQuoted) fun _ => ?_
  refine of_ite_eq (fun _ => grows_fetchPlain) ?_
  intro _ h
  cases h

end Fetch

/-! ## Whole texts -/

/-- A queue behind steps up to the end: perhaps with the end of the stream behind all the others. -/
def Comes (q r : List Token) : Prop :=
  Grows q r ∨ ∃ l t, Grows q l ∧ r = l ++ [t] ∧ t.kind = .streamEnd

theorem Grows.comes (first : Grows q r) (second : Comes r l) : Comes q l := by
  rcases second with grows | ⟨k, t, grows, ends, kind⟩
  · exact .inl (first.trans grows)
  · exact .inr ⟨k, t, first.trans grows, ends, kind⟩

theorem Comes.sublist (h : Comes q r) : q.Sublist r := by
  rcases h with grows | ⟨l, t, grows, rfl, -⟩
  · exact grows.sublist
  · exact grows.sublist.trans (List.sublist_append_left l [t])

theorem Comes.head (h : Comes q r) {p : Token.Kind → Prop} (keys : ∀ kind, kind.opensKey = true → p kind)
    (first : ∃ t ∈ q.head?, p t.kind) : ∃ t ∈ r.head?, p t.kind := by
  rcases h with grows | ⟨l, x, grows, rfl, -⟩
  · exact grows.head keys first
  · obtain ⟨t, ht, kind⟩ := grows.head keys first
    exact ⟨t, by rw [List.head?_append, ht]; rfl, kind⟩

/-- Once the end of the stream is there, the scanner has ended. -/
theorem comes_fetch (h : s.fetch = .ok t) :
    Grows s.queue t.queue ∨ t.ended = true ∧ Comes s.queue t.queue := by
  rw [fetch] at h
  obtain ⟨u, hu, h⟩ := bind_eq_ok.mp h
  have before : Grows s.queue (u.unwind u.cursor.mark.column).queue := by
    have unwound := grows_unwind u u.cursor.mark.column
    rwa [queue_dropStale hu, queue_toNextToken, queue_skipMark] at unwound
  dsimp only at h
  split at h
  · rw [fetchEnd] at h
    obtain ⟨w, hw, h⟩ := bind_eq_ok.mp h
    have ends := before.trans (grows_unwind (u.unwind u.cursor.mark.column) (-1))
    rw [← queue_dropCandidate hw] at ends
    cases h
    exact .inr ⟨rfl, .inr ⟨w.queue, _, ends, rfl, rfl⟩⟩
  · exact .inl (before.trans (grows_fetchAt h))

theorem comes_finish (steps : Nat) {z : Scanner} (done : finish steps s = .ok z) :
    Comes s.queue z.queue := by
  induction steps generalizing s with
  | zero =>
    cases done
    exact .inl (.refl _)
  | succ steps ih =>
    rw [finish] at done
    split at done
    · cases done
      exact .inl (.refl _)
    · obtain ⟨t, fetched, done⟩ := bind_eq_ok.mp done
      rcases comes_fetch fetched with grows | ⟨ended, comes⟩
      · exact grows.comes (ih done)
      · rw [finish_of_ended steps ended] at done
        cases done
        exact comes

/-! ## The end of a feed -/

/-- Nothing comes behind the end of the stream. -/
def EndsLast (tokens : List Token) : Prop :=
  ∀ front t rest, tokens = front ++ t :: rest → t.kind = .streamEnd → rest = []

theorem EndsLast.of_not_mem {tokens : List Token} (all : ∀ t ∈ tokens, t.kind ≠ .streamEnd) :
    EndsLast tokens := by
  rintro front t rest rfl ends
  exact absurd ends (all t (by simp))

theorem EndsLast.append {l tokens : List Token} (all : ∀ t ∈ l, t.kind ≠ .streamEnd)
    (last : EndsLast tokens) : EndsLast (l ++ tokens) := by
  intro front t rest cut ends
  rcases List.append_eq_append_iff.mp cut with ⟨more, rfl, rfl⟩ | ⟨more, rfl, same⟩
  · exact last more t rest rfl ends
  · cases more with
    | nil => exact last [] t rest same.symm ends
    | cons x more =>
      obtain ⟨rfl, -⟩ := List.cons_eq_cons.mp same
      exact absurd ends (all t (by simp))

theorem EndsLast.singleton (t : Token) : EndsLast [t] := by
  intro front x rest cut _
  rw [eq_comm, List.append_eq_cons_iff] at cut
  rcases cut with ⟨rfl, cut⟩ | ⟨front, -, cut⟩
  · exact (List.cons_eq_cons.mp cut).2.symm ▸ rfl
  · simp at cut

/-- In a feed nothing comes behind the end of the stream, not even a fault. -/
theorem endsLast_feed (steps : Nat) (running : ∀ t ∈ s.queue, t.kind ≠ .streamEnd) :
    EndsLast (feed steps s).items ∧
      ((∃ t ∈ (feed steps s).items, t.kind = .streamEnd) → (feed steps s).fault = none) := by
  have stays {tokens : List Token} {fault : Option ScanError}
      (all : ∀ t ∈ tokens, t.kind ≠ .streamEnd) : EndsLast tokens ∧
        ((∃ t ∈ tokens, t.kind = .streamEnd) → fault = none) := by
    refine ⟨.of_not_mem all, ?_⟩
    rintro ⟨t, ht, ends⟩
    exact absurd ends (all t ht)
  induction steps generalizing s with
  | zero => exact stays running
  | succ steps ih =>
    rw [feed]
    split
    · exact stays running
    · generalize checked : (if s.queue.isEmpty then Except.ok s else s.dropStale) = fresh
      cases fresh with
      | error e => exact stays (List.forall_mem_nil _)
      | ok u =>
        have queue : u.queue = s.queue := by
          split at checked
          · cases checked
            rfl
          · exact queue_dropStale checked
        have back : (u.release u.queue).2 ++ (u.release u.queue).1.queue = s.queue :=
          queue ▸ congrArg Scanner.queue (putBack_release u u.queue).1
        dsimp only
        generalize u.release u.queue = out at back ⊢
        obtain ⟨v, released⟩ := out
        rw [← back, List.forall_mem_append] at running
        obtain ⟨taken, waiting⟩ := running
        dsimp only at taken waiting ⊢
        cases fetched : v.fetch with
        | error e => exact stays taken
        | ok w =>
          dsimp only
          have more : EndsLast (feed steps w).items ∧
              ((∃ t ∈ (feed steps w).items, t.kind = .streamEnd) → (feed steps w).fault = none) := by
            rcases comes_fetch fetched with grows | ⟨ended, comes⟩
            · exact ih (grows.not_streamEnd waiting)
            · rw [feed_of_ended steps ended]
              refine ⟨?_, fun _ => rfl⟩
              rcases comes with grows | ⟨l, t, grows, queue, -⟩
              · exact .of_not_mem (grows.not_streamEnd waiting)
              · show EndsLast w.queue
                rw [queue]
                exact .append (grows.not_streamEnd waiting) (.singleton t)
          refine ⟨more.1.append taken, ?_⟩
          rintro ⟨t, ht, ends⟩
          rcases List.mem_append.mp ht with ht | ht
          · exact absurd ends (taken t ht)
          · exact more.2 ⟨t, ht, ends⟩

end Scan.Scanner

namespace TokenFeed

open Scan.Scanner (EndsLast)

theorem endsLast_ofText (s : Text) : EndsLast (ofText s).items ∧
    ((∃ t ∈ (ofText s).items, t.kind = .streamEnd) → (ofText s).fault = none) := by
  refine Scan.Scanner.endsLast_feed (s.length + 3) ?_
  rintro t (_ | ⟨_, ⟨⟩⟩)
  exact nofun

end TokenFeed

end YamlEdit
