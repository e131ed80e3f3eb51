import Progression.Proofs.Evaluation.Solo
import Progression.Proofs.Session.Definedness

/-!
# Names asked together

A session answers names that are asked together with one memo, and a name that is asked alone with a memo of its own.
On a cycle of names this can make a difference: a name that is settled while another one is open keeps that answer for
the rest of the row (`checkNames_not_each`). It makes none for names from which no cycle through two names can be
reached, and where every name that definitions refer to means something, it never makes any if and only if the rulebook
is complete (`checkNames_iff_each`).
-/

namespace Progression

section

variable {book : Rulebook} {held : Inventory} {ns : List Name} {bs : List Bool} {n : Name} {b : Bool} {memo m : Memo}

/-! ## Rows in closed rulebooks -/

/-- In a closed rulebook names in a row that mean something are answered, whatever is settled. -/
theorem exists_checkNames (hclosed : book.Closed) (hns : ∀ n ∈ ns, book.meaning n ≠ .undefined) (held : Inventory)
    (memo : Memo) : ∃ bs m, (book.checkNames held ns).on memo = (.ok bs, m) := by
  induction ns generalizing memo with
  | nil => exact ⟨[], memo, checkNames_nil⟩
  | cons n ns ih =>
    obtain ⟨hn, hns⟩ := List.forall_mem_cons.1 hns
    obtain ⟨b, hb⟩ := exists_checkName hclosed hn held memo
    obtain ⟨m, hrun⟩ := Check.on_eq_ok.1 hb
    obtain ⟨bs, m', hrest⟩ := ih hns m
    exact ⟨b :: bs, m', checkNames_cons_eq_ok.2 ⟨b, bs, m, rfl, hrun, hrest⟩⟩

theorem meaning_ne_undefined_of_checkName (h : (book.checkName held n).on memo = (.ok b, m)) :
    book.meaning n ≠ .undefined := by
  intro hmean
  rw [checkName_of_undefined hmean] at h
  cases h

theorem meaning_ne_undefined_of_checkNames (h : (book.checkNames held ns).on memo = (.ok bs, m)) :
    ∀ n ∈ ns, book.meaning n ≠ .undefined := by
  induction ns generalizing memo bs with
  | nil => exact fun _ hn => absurd hn List.not_mem_nil
  | cons n ns ih =>
    obtain ⟨b, cs, m', -, hn, hns⟩ := checkNames_cons_eq_ok.1 h
    exact List.forall_mem_cons.2 ⟨meaning_ne_undefined_of_checkName hn, ih hns⟩

/-! ## Rows in complete rulebooks -/

/-- In a rulebook that is closed and complete a name that means something answers, asked first, whether it is
grounded. -/
theorem checkName_eq_ok_iff_of_complete (hclosed : book.Closed) (hcomplete : book.Complete) :
    ((book.checkName held n).on ∅).1 = .ok b ↔ book.meaning n ≠ .undefined ∧ book.groundedNames held n = b := by
  rw [Check.on_eq_ok]
  constructor
  · rintro ⟨m, hrun⟩
    exact ⟨meaning_ne_undefined_of_checkName hrun, (eq_groundedNames_of_complete hcomplete checkNames_nil hrun).symm⟩
  · rintro ⟨hn, rfl⟩
    obtain ⟨b, hb⟩ := exists_checkName hclosed hn held ∅
    obtain ⟨m, hrun⟩ := Check.on_eq_ok.1 hb
    rw [← eq_groundedNames_of_complete hcomplete checkNames_nil hrun]
    exact ⟨m, hrun⟩

/-- And a row answers, if all its names mean something, which ones are grounded. -/
theorem checkNames_eq_ok_iff_of_complete (hclosed : book.Closed) (hcomplete : book.Complete) :
    ((book.checkNames held ns).on ∅).1 = .ok bs ↔
      (∀ n ∈ ns, book.meaning n ≠ .undefined) ∧ ns.map (book.groundedNames held) = bs := by
  rw [Check.on_eq_ok]
  constructor
  · rintro ⟨m, hrun⟩
    exact ⟨meaning_ne_undefined_of_checkNames hrun, (checkNames_of_complete hcomplete checkNames_nil hrun).symm⟩
  · rintro ⟨hns, rfl⟩
    obtain ⟨bs, m, hrun⟩ := exists_checkNames hclosed hns held ∅
    rw [← checkNames_of_complete hcomplete checkNames_nil hrun]
    exact ⟨m, hrun⟩

theorem rowAgrees_of_complete (hclosed : book.Closed) (hcomplete : book.Complete) (held : Inventory)
    (ns : List Name) : book.RowAgrees held ns := by
  intro bs
  simp only [checkName_eq_ok_iff_of_complete hclosed hcomplete]
  rw [checkNames_eq_ok_iff_of_complete hclosed hcomplete, List.forall₂_and_left,
    ← List.forall₂_eq_eq_eq, List.forall₂_map_left_iff]

/-- Where names in a row always agree, nothing is spoiled: the row that a requirement leaves could be followed by the
name it spoils. -/
theorem complete_of_rowAgrees (hclosed : book.Closed) (h : ∀ held ns, book.RowAgrees held ns) : book.Complete := by
  refine Classical.byContradiction fun hnot => ?_
  obtain ⟨held, r, m, k, hrun, hk, hrecall⟩ := exists_spoiled hclosed hnot
  obtain ⟨ns, bs, hns⟩ := leavesRow_check book held r ∅ false m hrun
  have hlast : (book.checkName held k).on m = (.ok false, m) := checkName_of_recall hrecall
  have hrow : ((book.checkNames held (ns ++ [k])).on ∅).1 = .ok (bs ++ [false]) :=
    congrArg Prod.fst (checkNames_append hns (checkNames_singleton hlast))
  have heach := List.forall₂_reverse_iff.2 ((h held _ _).1 hrow)
  rw [List.reverse_concat, List.reverse_concat, List.forall₂_cons] at heach
  rw [firstMet_eq_true.1 hk] at heach
  cases heach.1

end

/-! ## Sessions -/

namespace Session

/-- Names that are asked together are answered if and only if each is when it is asked alone, and the same. -/
def TogetherAsAlone (s : Session) (ns : List Name) : Prop :=
  ∀ bs, (s.checkNames ns).answer = .ok bs ↔ List.Forall₂ (fun n b => (s.checkName n).answer = .ok b) ns bs

variable {s : Session} {ns ns' : List Name} {bs bs' : List Bool} {n : Name} {b b' : Bool}

theorem checkName_eq_ok :
    (s.checkName n).answer = .ok b ↔ ((s.rulebook.checkName s.inventory n).on ∅).1 = .ok b := by
  rw [checkName, Query.answer_within, within_eq_ok, Query.answer_ofCheck]
  exact mapError_eq_ok

theorem checkNames_eq_ok :
    (s.checkNames ns).answer = .ok bs ↔ ((s.rulebook.checkNames s.inventory ns).on ∅).1 = .ok bs := by
  rw [checkNames, Query.answer_ofCheck]
  exact mapError_eq_ok

theorem togetherAsAlone_iff : s.TogetherAsAlone ns ↔ s.rulebook.RowAgrees s.inventory ns := by
  unfold TogetherAsAlone Rulebook.RowAgrees
  simp only [checkName_eq_ok, checkNames_eq_ok]

/-- A name that is asked together with these names, or with those, gets the same answer. -/
theorem TogetherAsAlone.eq_of_mem_zip (h : s.TogetherAsAlone ns) (h' : s.TogetherAsAlone ns')
    (hbs : (s.checkNames ns).answer = .ok bs) (hbs' : (s.checkNames ns').answer = .ok bs')
    (hb : (n, b) ∈ ns.zip bs) (hb' : (n, b') ∈ ns'.zip bs') : b = b' := by
  have halone : (s.checkName n).answer = .ok b := List.forall₂_zip ((h bs).1 hbs) hb
  rw [List.forall₂_zip ((h' bs').1 hbs') hb'] at halone
  exact (Except.ok.inj halone).symm

end Session

/-- When names that are asked together are answered as each is alone: if no cycle of references through two names can
be reached from them, and then no answer depends on which other names are asked with it, or in what order. Where every
name that the definitions refer to means something, all names are so in all sessions if and only if the rules are
complete. -/
theorem checkNames_iff_each (book : Rulebook) :
    (∀ (s : Session) (ns : List Name), s.rulebook = book → (∀ n ∈ ns, book.definitions.Untangled n) →
      s.TogetherAsAlone ns) ∧
    (∀ (s : Session) (ns ns' : List Name) (bs bs' : List Bool), s.rulebook = book →
      (∀ n ∈ ns ++ ns', book.definitions.Untangled n) → (s.checkNames ns).answer = .ok bs →
        (s.checkNames ns').answer = .ok bs' →
          ∀ n b b', (n, b) ∈ ns.zip bs → (n, b') ∈ ns'.zip bs' → b = b') ∧
    (book.Closed → ((∀ (s : Session) (ns : List Name), s.rulebook = book → s.TogetherAsAlone ns) ↔
      book.Complete)) := by
  have huntangled : ∀ (s : Session) (ns : List Name), s.rulebook = book →
      (∀ n ∈ ns, book.definitions.Untangled n) → s.TogetherAsAlone ns := by
    rintro s ns rfl hns
    exact Session.togetherAsAlone_iff.2 (rowAgrees_of_untangled hns s.inventory)
  refine ⟨huntangled, fun s ns ns' bs bs' hs hns hbs hbs' n b b' => ?_, fun hclosed => ?_⟩
  · obtain ⟨hns, hns'⟩ := List.forall_mem_append.1 hns
    exact (huntangled s ns hs hns).eq_of_mem_zip (huntangled s ns' hs hns') hbs hbs'
  · constructor
    · intro h
      refine complete_of_rowAgrees hclosed fun held ns => ?_
      exact Session.togetherAsAlone_iff.1 (h (book.sessionWith held .free) ns rfl)
    · rintro hcomplete s ns rfl
      exact Session.togetherAsAlone_iff.2 (rowAgrees_of_complete hclosed hcomplete s.inventory ns)

/-- A name that refers to itself, a name that asks for one that means nothing, and two names that refer to each
other. -/
def tower : Rulebook where
  definitions := .ofList [
    ("x", .ofClauses (.ofNames "x" []) [.ofNames "key" []]),
    ("key", .atom (.item 3)),
    ("attic", .atom (.reference "lost")),
    ("up", .ofClauses (.ofNames "down" []) [.ofNames "key" []]),
    ("down", .atom (.reference "up"))]
  glitchDefinitions := ∅
  settings := .default

theorem checkNames_iff_each_tower :
    (tower.sessionWith (.ofList [.item 3]) .free).TogetherAsAlone ["x", "key", "attic"] ∧
    (∀ b b', ("x", b) ∈ ["x", "key"].zip [true, true] → ("x", b') ∈ ["key", "x"].zip [true, true] → b = b') ∧
    selfReferring.Complete ∧
    ∀ (s : Session) (ns : List Name), s.rulebook = selfReferring → s.TogetherAsAlone ns := by
  have huntangled : ∀ n, n ≠ "up" ∧ n ≠ "down" → tower.definitions.Untangled n := fun n hn =>
    Definitions.untangled_of_rank (A := fun k => k ≠ "up" ∧ k ≠ "down")
      (fun k => if k = "key" ∨ k = "lost" then 0 else 1) (by decide) hn
  have hcomplete : selfReferring.Complete :=
    complete_of_onlySelfLoops (Definitions.onlySelfLoops_of_rank (fun n => if n = "x" then 1 else 0) (by decide))
  have hclosed : selfReferring.Closed :=
    Session.closed_of_undefinedNames_eq_nil (s := selfReferring.sessionWith ∅ .free) rfl
  obtain ⟨htogether, hsame, -⟩ := checkNames_iff_each tower
  obtain ⟨-, -, hall⟩ := checkNames_iff_each selfReferring
  refine ⟨htogether _ _ rfl fun n hn => huntangled n ?_, ?_, hcomplete, (hall hclosed).2 hcomplete⟩
  · revert n
    decide
  · refine hsame (tower.sessionWith (.ofList [.item 3]) .free) _ _ _ _ rfl (fun n hn => huntangled n ?_) rfl rfl "x"
    revert n
    decide

/-- A name that is settled while another one is open is not answered as it is alone. -/
theorem checkNames_not_each : ¬ ∀ (s : Session) (ns : List Name), s.TogetherAsAlone ns := by
  intro h
  have hknot := h (knot.sessionWith (.ofList [.item 3]) .free) ["x", "y"] [true, true]
  have hrow : ((knot.sessionWith (.ofList [.item 3]) .free).checkNames ["x", "y"]).answer = .ok [true, false] := rfl
  rw [hrow] at hknot
  cases hknot.2 (.cons rfl (.cons rfl .nil))

end Progression
