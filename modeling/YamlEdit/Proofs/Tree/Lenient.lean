import YamlEdit.Proofs.Outcome
import YamlEdit.Tree.Compose

/-!
# Lenient trees extend strict ones

A strict builder and a lenient one take the same events in the same way, until the strict one refuses
an alias without a node or an anchor whose name is taken. Anchors are kept the same way in both, so a
strict builder that goes on is the lenient one but for its mode, and whatever else stops one of them
stops the other with the same error.
-/

namespace YamlEdit.Tree

/-- The errors that only a strict tree knows, each with the event that it is about. -/
inductive RefusedFor (s : Text) (e : Event) : LoadError → Prop
  | undefinedAlias {name : Text} (named : e.kind = .aliasOf name) :
      RefusedFor s e (.compose ⟨.undefinedAlias name, s, none, some e.start⟩)
  | duplicateAnchor {name : Text} (named : e.kind.anchor? = some name) :
      RefusedFor s e (.compose ⟨.duplicateAnchor name, s, none, some e.start⟩)

/-- A builder that takes duplicate anchors and unknown aliases. -/
def Builder.relaxed (b : Builder) : Builder :=
  { b with lenient := true }

/-- A strict outcome beside the lenient one: the same but for the mode, unless an event is refused. -/
def Tolerates (refused : LoadError → Prop) (strict lenient : Except LoadError Builder) : Prop :=
  lenient = strict.map Builder.relaxed ∨ ∃ e, strict = .error e ∧ refused e

namespace Tolerates

variable {refused : LoadError → Prop}

theorem of_ok {b c : Builder} (h : c = b.relaxed) :
    Tolerates refused (.ok b) (.ok c) :=
  .inl (congrArg Except.ok h)

theorem of_error (e : LoadError) : Tolerates refused (.error e) (.error e) :=
  .inl rfl

theorem of_refused {e : LoadError} (h : refused e) (lenient : Except LoadError Builder) :
    Tolerates refused (.error e) lenient :=
  .inr ⟨e, rfl, h⟩

/-- What follows a builder that was not refused. -/
theorem bind {strict lenient : Except LoadError Builder} {next : Builder → Except LoadError Builder}
    (h : Tolerates refused strict lenient)
    (more : ∀ b, strict = .ok b → Tolerates refused (next b) (next b.relaxed)) :
    Tolerates refused (strict >>= next) (lenient >>= next) := by
  rcases h with rfl | ⟨e, rfl, stopped⟩
  · cases strict with
    | error e => exact of_error e
    | ok b => exact more b rfl
  · exact of_refused stopped _

end Tolerates

namespace Builder

variable {b b' : Builder} {e : Event}

theorem close_relaxed (b : Builder) (stop : Mark) :
    b.relaxed.close stop = (b.close stop).relaxed := by
  obtain ⟨text, lenient, nodes, anchors, stack, started⟩ := b
  cases stack <;> rfl

/-- A step keeps the text and the mode. -/
theorem kept_step (h : b.step e = .ok b') : b'.text = b.text ∧ b'.lenient = b.lenient := by
  rw [step] at h
  obtain ⟨-, -, h⟩ := bind_eq_ok.mp h
  cases kind : e.kind with
  | documentStart | aliasOf =>
    rw [kind] at h
    obtain ⟨-, h⟩ := guard_eq_ok.mp h
    cases h
    exact ⟨rfl, rfl⟩
  | sequenceEnd | mappingEnd =>
    rw [kind] at h
    cases h
    rw [close]
    split <;> exact ⟨rfl, rfl⟩
  | _ =>
    rw [kind] at h
    cases h
    exact ⟨rfl, rfl⟩

/-- The check of an event's anchor refuses it, or there is nothing to check in either mode. -/
theorem checkAnchor_cases (strict : b.lenient = false) (e : Event) :
    b.relaxed.checkAnchor e = .ok () ∧
      (b.checkAnchor e = .ok () ∨ ∃ f, b.checkAnchor e = .error f ∧ RefusedFor b.text e f) := by
  rw [checkAnchor, checkAnchor, relaxed]
  cases anchor : e.kind.anchor? with
  | none => exact ⟨rfl, .inl rfl⟩
  | some name =>
    dsimp only
    rw [strict, Bool.not_true, Bool.and_false, Bool.not_false, Bool.and_true]
    refine ⟨rfl, ?_⟩
    cases (b.anchors.lookup name).isSome with
    | false => exact .inl rfl
    | true => exact .inr ⟨_, rfl, .duplicateAnchor anchor⟩

/-- A step is refused, or comes to the same in both modes. -/
theorem tolerates_step (strict : b.lenient = false) (e : Event) :
    Tolerates (RefusedFor b.text e) (b.step e) (b.relaxed.step e) := by
  obtain ⟨passes, checked | ⟨f, stopped, refused⟩⟩ := checkAnchor_cases strict e
  · rw [step, step, passes, checked]
    cases kind : e.kind with
    | documentStart =>
      show Tolerates _ (if b.started then _ else _) (if b.started then _ else _)
      cases b.started with
      | true => exact .of_error _
      | false => exact .of_ok rfl
    | aliasOf name =>
      show Tolerates _ (if (b.target? name).isNone && !b.lenient then _ else _)
        (if (b.target? name).isNone && !true then _ else _)
      rw [strict, Bool.not_true, Bool.and_false, Bool.not_false, Bool.and_true]
      cases (b.target? name).isNone with
      | true => exact .of_refused (.undefinedAlias kind) _
      | false => exact .of_ok rfl
    | sequenceEnd | mappingEnd => exact .of_ok (close_relaxed b e.stop)
    | _ => exact .of_ok rfl
  · rw [step, stopped]
    exact .of_refused refused _

/-- A strict run is refused at one of its events, or is the lenient run but for the mode. -/
theorem tolerates_steps (strict : b.lenient = false) (items : List Event) :
    Tolerates (fun f => ∃ e ∈ items, RefusedFor b.text e f) (items.foldlM step b)
      (items.foldlM step b.relaxed) := by
  induction items generalizing b with
  | nil => exact .of_ok rfl
  | cons e items ih =>
    rw [List.foldlM_cons, List.foldlM_cons]
    have first : Tolerates (fun f => ∃ e' ∈ e :: items, RefusedFor b.text e' f) (b.step e)
        (b.relaxed.step e) :=
      (tolerates_step strict e).imp_right fun ⟨f, stopped, refused⟩ =>
        ⟨f, stopped, e, List.mem_cons_self, refused⟩
    refine first.bind fun c taken => ?_
    obtain ⟨text, mode⟩ := kept_step taken
    refine (ih (mode.trans strict)).imp_right ?_
    rintro ⟨f, stopped, e', later, refused⟩
    exact ⟨f, stopped, e', List.mem_cons_of_mem e later, text ▸ refused⟩

end Builder

/-- A text is composed in both modes alike, unless it is refused for an alias or an anchor of it. -/
theorem tolerates_compose (s : Text) :
    compose s true = compose s ∨
      ∃ f, compose s = .error f ∧ ∃ e ∈ (EventFeed.ofText s).items, RefusedFor s e f := by
  rw [compose, compose]
  cases firstUnreadable? s with
  | some f => exact .inl rfl
  | none =>
    dsimp only
    rw [ofEvents, ofEvents]
    have run := Builder.tolerates_steps (b := { text := s, lenient := false }) rfl
      (EventFeed.ofText s).items
    rcases run with same | ⟨f, stopped, refused⟩
    · left
      rw [show List.foldlM Builder.step { text := s, lenient := true } _ = _ from same]
      cases List.foldlM Builder.step { text := s, lenient := false } (EventFeed.ofText s).items <;>
        rfl
    · right
      rw [stopped]
      exact ⟨f, rfl, refused⟩

/-- A text that is composed strictly is composed leniently to the same tree. -/
theorem compose_lenient {s : Text} {t : Tree} (h : compose s = .ok t) : compose s true = .ok t := by
  rcases tolerates_compose s with same | ⟨f, stopped, -⟩
  · exact same.trans h
  · rw [stopped] at h
    cases h

/-- A tree that is composed strictly is composed leniently as it is. A text that is not is refused for
an alias or an anchor of it, or fails in both modes with the same error. -/
theorem compose_strict_or_refused (s : Text) :
    (∀ t, compose s = .ok t → compose s true = .ok t) ∧
      ∀ f, compose s = .error f →
        compose s true = .error f ∨ ∃ e ∈ (EventFeed.ofText s).items, RefusedFor s e f := by
  refine ⟨fun t => compose_lenient, fun f failed => ?_⟩
  refine (tolerates_compose s).imp (fun same => same.trans failed) ?_
  rintro ⟨f', failed', refused⟩
  rw [failed] at failed'
  cases failed'
  exact refused

/-- A text whose alias has a node, and one whose alias has none. -/
theorem compose_strict_or_refused_twoAliases :
    (∃ t, compose "- &x [a]\n- *x\n".toList = .ok t ∧
      compose "- &x [a]\n- *x\n".toList true = .ok t) ∧
    ∃ t f, compose "- &x a\n- *y\n".toList true = .ok t ∧
      compose "- &x a\n- *y\n".toList = .error f ∧
      ∃ e ∈ (EventFeed.ofText "- &x a\n- *y\n".toList).items,
        RefusedFor "- &x a\n- *y\n".toList e f := by
  constructor
  · obtain ⟨t, composed, -⟩ := exists_of_any
      (show (compose "- &x [a]\n- *x\n".toList).toOption.any (·.hasAlias) = true by decide +kernel)
    exact ⟨t, composed, (compose_strict_or_refused _).1 t composed⟩
  · obtain ⟨t, lenient, -⟩ := exists_of_any
      (show (compose "- &x a\n- *y\n".toList true).toOption.any (·.hasAlias) = true by
        decide +kernel)
    have strict : (compose "- &x a\n- *y\n".toList).toOption.isNone = true := by decide +kernel
    cases composed : compose "- &x a\n- *y\n".toList with
    | ok t =>
      rw [composed] at strict
      cases strict
    | error f =>
      refine ⟨t, f, lenient, rfl, ((compose_strict_or_refused _).2 f composed).resolve_left ?_⟩
      rw [lenient]
      nofun

end YamlEdit.Tree
