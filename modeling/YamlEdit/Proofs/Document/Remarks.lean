import YamlEdit.Proofs.Document.Fallback

/-!
# Remarks next to a changed value

A scalar that gets another value is replaced from its start to its end, and a remark stands behind
the end. That of a block scalar does not: it stands behind the sign that the scalar begins with, and
goes with the lines of the scalar.
-/

namespace YamlEdit.Document

/-- A block scalar whose remark stands behind the sign it begins with. -/
def notedBlock : Document :=
  { text := "a: | # note\n  text\nb: 1\n".toList }

def notedBlockNext : Value :=
  .dict none [(.str "a".toList, .int 5), (.str "b".toList, .int 1)]

theorem assigned_notedBlock :
    notedBlock.assigned? notedBlockNext [] = some "a: 5\nb: 1\n".toList := by
  decide +kernel

/-- The remark is gone, and nothing falls back. -/
theorem drops_remark_notedBlock :
    (notedBlock.getRemark [.str "a".toList]).toOption = some "note".toList ∧
      ∃ d' t, Gives (notedBlock.assign notedBlockNext) [] d' t ∧
        (∃ text ∈ notedBlock.candidate? notedBlockNext [], Loads text notedBlockNext) ∧
        (d'.getRemark [.str "a".toList]).toOption = some [] := by
  obtain ⟨d', t, gives, text, -⟩ := gives_of_assigned? assigned_notedBlock
  have patched : notedBlock.candidate? notedBlockNext [] = some "a: 5\nb: 1\n".toList := by
    decide +kernel
  refine ⟨by decide +kernel, d', t, gives, ⟨_, patched, loads_iff_check.mpr (by decide +kernel)⟩, ?_⟩
  have same : d'.getRemark [.str "a".toList] =
      getRemark { text := d'.text } [.str "a".toList] := rfl
  rw [same, text]
  decide +kernel

end YamlEdit.Document
