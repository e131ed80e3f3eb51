import Progression.Proofs.Evaluation.Relevance
import Progression.Proofs.Evaluation.Termination
import Progression.Proofs.Requirement.Valuation

/-!
# Glitch names while glitches are off

While glitches are off, a glitch name that is not bound is denied. It could as well be bound to falsehood: then there
are no glitch names left, every name means the same (`Rulebook.meaning_denyGlitches`), and questions in a row get the
same answers, also after some of them fail (`askAll_denyGlitches`).
-/

namespace Progression

/-- Binds the names that are not bound yet to falsehood. -/
def Definitions.deny (defs : Definitions) (ns : List Name) : Definitions :=
  (ns.filter (· ∉ defs)).foldl (fun t n => t.set n (.atom (.literal false))) defs

/-- The rulebook without glitch names, where those that are not bound are bound to falsehood. -/
def Rulebook.denyGlitches (book : Rulebook) : Rulebook where
  definitions := book.definitions.deny book.glitchDefinitions.keys
  glitchDefinitions := ∅
  settings := book.settings

section

variable {defs : Definitions} {ns : List Name} {n : Name}

theorem get?_foldl_set_false (ns : List Name) (defs : Definitions) (n : Name) :
    (ns.foldl (fun t n => t.set n (.atom (.literal false))) defs).get? n =
      if n ∈ ns then some (.atom (.literal false)) else defs.get? n := by
  induction ns generalizing defs with
  | nil => simp
  | cons m ns ih =>
    rw [List.foldl_cons, ih, Table.get?_set]
    by_cases hns : n ∈ ns <;> by_cases hm : n = m <;> simp [hns, hm]

/-- A binding stays. -/
theorem Definitions.get?_deny_of_some {r : Requirement} (h : defs.get? n = some r) :
    (defs.deny ns).get? n = some r := by
  have hbound : n ∈ defs := Table.mem_iff_get?.2 ⟨r, h⟩
  have hkept : n ∉ ns.filter (· ∉ defs) := by simp [hbound]
  rw [deny, get?_foldl_set_false, if_neg hkept, h]

theorem Definitions.get?_deny_of_none (h : defs.get? n = none) :
    (defs.deny ns).get? n = if n ∈ ns then some (.atom (.literal false)) else none := by
  have hunbound : n ∉ defs := Table.get?_eq_none_iff.1 h
  have hmem : n ∈ ns.filter (· ∉ defs) ↔ n ∈ ns := by simp [hunbound]
  rw [deny, get?_foldl_set_false, h]
  simp only [hmem]

end

namespace Rulebook

variable {book : Rulebook}

/-- Every name means what it meant, whether a rule decides it, it is bound, gated, or nothing of these. -/
theorem meaning_denyGlitches (hoff : book.settings.glitches = false) (n : Name) :
    book.denyGlitches.meaning n = book.meaning n := by
  have hsettings : book.denyGlitches.settings = book.settings := rfl
  cases hrule : book.settings.rule? n with
  | some rule =>
    have hrule' : book.denyGlitches.settings.rule? n = some rule := hrule
    rw [meaning_of_rule hrule, meaning_of_rule hrule', hsettings]
  | none =>
    have hrule' : book.denyGlitches.settings.rule? n = none := hrule
    cases hget : book.definitions.get? n with
    | some r =>
      have hget' : book.denyGlitches.definitions.get? n = some r := Definitions.get?_deny_of_some hget
      rw [meaning_of_binding hrule hget, meaning_of_binding hrule' hget']
    | none =>
      have hget' : book.denyGlitches.definitions.get? n =
          if n ∈ book.glitchDefinitions then some (.atom (.literal false)) else none :=
        Definitions.get?_deny_of_none hget
      rw [meaning_of_unbound hrule hget, hoff]
      by_cases hn : n ∈ book.glitchDefinitions
      · rw [if_pos hn] at hget'
        rw [meaning_of_binding hrule' hget']
        simp [Meaning.ofRequirement, hn]
      · rw [if_neg hn] at hget'
        have hgate : n ∉ book.denyGlitches.glitchDefinitions := List.not_mem_nil
        rw [meaning_of_unbound hrule' hget']
        simp [hn, hgate]

theorem agree_denyGlitches (hoff : book.settings.glitches = false) (held : Inventory) :
    Agree book book.denyGlitches held held fun _ => True where
  meaning _ := (meaning_denyGlitches hoff _).symm
  token _ _ := Iff.rfl
  mentioned _ _ _ _ := Iff.rfl
  referred _ _ _ _ := trivial

theorem ask_denyGlitches (hoff : book.settings.glitches = false) (held : Inventory) (q : Question) :
    book.ask held q = book.denyGlitches.ask held q := by
  rw [ask_eq, ask_eq]
  exact (agree_denyGlitches hoff held).check_eq (fun _ _ => Iff.rfl) fun _ _ => trivial

end Rulebook

/-- While glitches are off, glitch names are as good as literal falsehood: questions in a row, answered or not, come to
the same with no glitch names but with those that are not bound bound to falsehood. The answers, failures, memos and
logs are the same from every memo on; in particular so is the answer to a question after any others. -/
theorem askAll_denyGlitches (book : Rulebook) (hoff : book.settings.glitches = false) (held : Inventory) :
    (∀ qs, book.askAll held qs = book.denyGlitches.askAll held qs) ∧
      ∀ qs q, book.answerAfter held qs q = book.denyGlitches.answerAfter held qs q := by
  have hask : book.ask held = book.denyGlitches.ask held := funext (Rulebook.ask_denyGlitches hoff held)
  refine ⟨fun qs => ?_, fun qs q => ?_⟩
  · unfold Rulebook.askAll
    rw [hask]
  · unfold Rulebook.answerAfter Rulebook.memoAfter
    rw [hask]

/-- Glitch names that are bound, not bound, and decided by a rule. -/
def cliffs : Rulebook where
  definitions := .ofList [
    ("high_ledge", .ofClauses (.ofNames "wall_clip" []) [.ofNames "double_jump" []]),
    ("double_jump", .atom (.item 16)),
    ("open", .ofClauses (.ofNames "nonlinear" ["missing"]) [])]
  glitchDefinitions := .ofList [
    ("wall_clip", .atom (.reference "double_jump")),
    ("double_jump", .free),
    ("nonlinear", .free)]
  settings := ⟨.ooe, false, true⟩

/-- Only a name that is nowhere to be found stops. -/
theorem askAll_denyGlitches_cliffs :
    cliffs.settings.glitches = false ∧
      ((cliffs.denyGlitches.askAll (.ofList [.item 16])
        [.name "wall_clip", .name "open", .name "high_ledge", .name "open", .name "nonlinear"]).run ∅).value.1 =
        [.ok false, .error "missing", .ok true, .ok false, .ok true] := by
  rw [← (askAll_denyGlitches cliffs rfl (.ofList [.item 16])).1]
  exact ⟨rfl, rfl⟩

end Progression
