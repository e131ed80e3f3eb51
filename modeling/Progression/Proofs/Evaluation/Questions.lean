import Mathlib.Data.List.Induction
import Progression.Proofs.Evaluation.Run

/-!
# Questions in a row

Requirements and names may be asked one after the other with one memo that begins empty. A question that stops at a
name leaves the memo as it is then, and the next question goes on with it. What every question keeps, all questions in
a row keep (`Rulebook.memoAfter_induction`).
-/

namespace Progression

inductive Question
  | requirement (r : Requirement)
  | name (n : Name)

/-- The requirement that is asked about. -/
def Question.asked : Question → Requirement
  | requirement r => r
  | name n => .atom (.reference n)

namespace Rulebook

variable (book : Rulebook) (held : Inventory)

def ask : Question → Check Bool
  | .requirement r => book.check held r
  | .name n => book.checkName held n

/-- The memo after some questions, answered or not. -/
def memoAfter (qs : List Question) : Memo :=
  qs.foldl (fun memo q => ((book.ask held q).on memo).2) ∅

/-- The answer to a question after some other ones. -/
def answerAfter (qs : List Question) (q : Question) : Except Name Bool :=
  ((book.ask held q).on (book.memoAfter held qs)).1

variable {book held}

/-- Asking for a name is asking for the requirement that refers to it. -/
theorem ask_eq (q : Question) : book.ask held q = book.check held q.asked := by
  cases q <;> rfl

theorem memoAfter_concat (qs : List Question) (q : Question) :
    book.memoAfter held (qs ++ [q]) = ((book.ask held q).on (book.memoAfter held qs)).2 := by
  unfold memoAfter
  rw [List.foldl_append]
  rfl

theorem memoAfter_induction {I : Memo → Prop} (hempty : I ∅)
    (hstep : ∀ q memo, I memo → I ((book.ask held q).on memo).2) (qs : List Question) :
    I (book.memoAfter held qs) := by
  induction qs using List.reverseRecOn with
  | nil => exact hempty
  | append_singleton qs q ih =>
    rw [memoAfter_concat]
    exact hstep q _ ih

end Rulebook

end Progression
