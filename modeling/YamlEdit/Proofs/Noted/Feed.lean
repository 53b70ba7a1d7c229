import YamlEdit.Proofs.Noted.Crossed

/-!
# The tokens of a text with another comment

Fetch by fetch the two texts have the same tokens up to the place, then they meet behind its line and
have the same tokens up to their ends. So the kinds of all tokens are the same.
-/

namespace YamlEdit

open Scan

namespace Scan.Scanner

variable {src : Text} {all : List Token} {columns : List Nat} {s t z : Scanner}

theorem Trail.early (h : Trail src all columns s) : s.Early := by
  intro k hk
  have waits := h.waits k hk
  exact line_le_of_in waits.mark h.cursor.mark waits.before

/-- From states that join the texts have the same tokens up to their ends. -/
theorem finish_joined {u post w w' src' : Text} {all' : List Token} {columns' : List Nat}
    (h : Fork u post w w') (steps : Nat) (hs : Trail (u ++ w) all columns s) (fs : Filled all s)
    (ht : Trail src' all' columns' t) (ft : Filled all' t) (taken : s.taken = 0)
    (joined : Joined u src' w w' s t) (done : finish steps s = .ok z)
    (clears : ∀ k ∈ z.queue, k.Clears u) (delimited : Delimited z.queue) :
    ∃ y, finish steps t = .ok y ∧ y.queue.map (·.kind) = z.queue.map (·.kind) := by
  induction steps generalizing s t all columns all' columns' with
  | zero =>
    cases done
    refine ⟨t, rfl, ?_⟩
    rcases joined with ⟨v, -, f⟩ | crossed
    · rw [f.same]
      rfl
    · simpa using crossed.kinds
  | succ steps ih =>
    obtain ⟨there, -⟩ := hs.atNext fs
    rcases joined.meets h hs.early with @⟨c, v, inside, f⟩ | c
    rotate_left
    · exact finish_crossed (steps + 1) hs fs ht taken c done delimited
    · have ended : t.ended = s.ended := by simpa using congrArg Scanner.ended f.same
      have queue : t.queue = s.queue := by simpa using congrArg Scanner.queue f.same
      rw [finish] at done ⊢
      rw [ended]
      split at done
      · next stopped =>
        cases done
        rw [if_pos stopped]
        exact ⟨t, rfl, by rw [queue]⟩
      · next going =>
        rw [if_neg going]
        obtain ⟨x, fetched, done⟩ := bind_eq_ok.mp done
        have kept := (comes_finish steps done).sublist
        obtain ⟨y, fetched', joined⟩ := joins_fetchFrom h inside f there.early there.cursor x fetched
          fun k hk => clears k (kept.mem (List.mem_of_getLast? hk))
        obtain ⟨all₁, columns₁, hx, fx, same, -⟩ := hs.fetch fs fetched
        obtain ⟨all₂, columns₂, hy, fy, -⟩ := ht.fetch ft fetched'
        obtain ⟨y', done', kinds⟩ := ih hx fx hy fy (same.trans taken) joined done
        exact ⟨y', bind_eq_ok.mpr ⟨y, fetched', done'⟩, kinds⟩

/-- The state in front of a text. -/
def opening (s : Text) : Scanner :=
  ({ source := s, cursor := .start s } : Scanner).pushHere .streamStart

theorem trail_opening (s : Text) :
    ∃ all, Trail s all [] (opening s) ∧ Filled all (opening s) := by
  have inside : (Cursor.start s).In s := ⟨Nat.zero_le _, rfl⟩
  have none : Trail s [] [] { source := s, cursor := .start s } :=
    ⟨inside, Nat.le_refl _, rfl, nofun, .nil, nofun, rfl, rfl, nofun, .nil⟩
  exact ⟨_, none.push (t := ⟨.streamStart, .zero, .zero⟩) (u := opening s) rfl
    (.of_isInert rfl inside.mark inside.mark (Nat.le_refl _)) inside
    ⟨Nat.le_refl _, fun _ => .refl s _⟩ rfl rfl (.refl _) rfl rfl nofun nofun⟩

end Scan.Scanner

open Scan.Scanner

theorem TokenFeed.ofText_steps (s : Text) {steps : Nat} (enough : s.length < steps) :
    ofText s = (opening s).feed steps :=
  feed_steps (s := opening s) (show s.length < s.length + 3 by omega) enough

/-- A comment in another's place, or where none was, changes no kind of token. -/
theorem TokenFeed.kinds_noted {u post w w' : Text} (h : Fork u post w w')
    (sound : (ofText (u ++ w)).fault = none) (clears : ∀ k ∈ (ofText (u ++ w)).items, k.Clears u)
    (delimited : Delimited (ofText (u ++ w)).items) :
    (ofText (u ++ w')).kinds = (ofText (u ++ w)).kinds ∧ (ofText (u ++ w')).fault = none := by
  obtain ⟨steps, enough, enough'⟩ : ∃ n, (u ++ w).length < n ∧ (u ++ w').length < n :=
    ⟨(u ++ w).length + (u ++ w').length + 1, by omega, by omega⟩
  obtain ⟨all, hs, fs⟩ := trail_opening (u ++ w)
  obtain ⟨all', ht, ft⟩ := trail_opening (u ++ w')
  rw [ofText_steps _ enough] at sound clears delimited
  obtain ⟨z, done, items⟩ := finish_of_feed steps hs fs sound
  rw [← items] at clears delimited
  have facing : Facing (u ++ w') u w w' (opening (u ++ w)) (opening (u ++ w')) := ⟨rfl, rfl⟩
  obtain ⟨y, done', kinds⟩ := finish_joined h steps hs fs ht ft rfl
    (.inl ⟨u, List.suffix_refl u, facing⟩) done clears delimited
  rw [ofText_steps _ enough, ofText_steps _ enough', feed_of_finish steps hs fs done,
    feed_of_finish steps ht ft done']
  exact ⟨kinds, rfl⟩

end YamlEdit
