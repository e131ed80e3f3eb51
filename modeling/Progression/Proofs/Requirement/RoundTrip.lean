import Progression.Proofs.Requirement.Grammar

/-!
# Reading a printed requirement

The text of a requirement that was read is read as the same requirement. There is one exception: a text that is only
the name of a flag is that flag, so an expression with one flag and nothing else comes back without its clause
(`Requirement.reread`). Placeholders are printed as a name and do not come back.
-/

namespace Progression

open Text (Padded isBlank)

/-- The requirement, with an expression of a single flag made the flag. -/
def Requirement.reread : Requirement → Requirement
  | .expression ⟨[⟨[some (.flag n)], _⟩], _⟩ => .atom (.flag n)
  | r => r

/-- A requirement and what comes back for it have the same text. -/
theorem display_reread (r : Requirement) : r.reread.display = r.display := by
  unfold Requirement.reread
  split
  · rfl
  · rfl

/-- The terms of the clause are atoms of names. -/
def Clause.Named (flags : FlagNames) (c : Clause) : Prop :=
  ∀ t ∈ c.terms, ∃ n, IsTermName n ∧ t = some (Atom.ofName flags n)

variable {flags : FlagNames} {p : List Char} {n : Name}

/-! ## Names -/

theorem display_ofName (flags : FlagNames) (n : Name) : (Atom.ofName flags n).display = n := by
  unfold Atom.ofName
  split
  · rfl
  · rfl

/-- A name without blanks is the name of itself. -/
theorem Name.ofText_eq_self (h : ∀ c ∈ n.toList, isBlank c = false) : Name.ofText n = n := by
  rw [Name.ofText, Text.normalize_eq_self h, String.ofList_toList]

theorem IsTermName.exists_mem (h : IsTermName n) : ∃ c, c ∈ n.toList := by
  refine List.exists_mem_of_ne_nil _ fun hnil => h.nonempty ?_
  rw [← String.toList_inj, hnil, String.toList_empty]

/-- A name of a term, between blanks, writes its atom. -/
theorem writesTerm_of_padded (h : IsTermName n) (hp : Padded n.toList p) :
    WritesTerm flags p (some (Atom.ofName flags n)) := by
  have hblank : ∀ c ∈ n.toList, isBlank c = false := fun c hc => (h.plain c hc).1
  have hnorm : Text.normalize p = n.toList := by
    rw [Text.normalize_padded hp, Text.normalize_eq_self hblank]
  obtain ⟨c, hc⟩ := h.exists_mem
  have hgroup : (n.toList.any fun c => decide (c ∈ groupingSigns)) = false := by
    rw [List.any_eq_false]
    exact fun c hc => by simpa using (h.plain c hc).2.2.2
  rw [← ofTerm_eq_ok, Atom.ofTerm, hnorm, if_neg (List.ne_nil_of_mem hc), hgroup, if_neg Bool.false_ne_true,
    String.ofList_toList]

/-! ## Clauses and expressions -/

section

variable {c : Clause}

/-- The texts of the terms of a clause. -/
def Clause.pieces (c : Clause) : List (List Char) :=
  c.terms.map fun t => (t.elim "_" Atom.display).toList

/-- The texts of the clauses of an expression. -/
def Expression.pieces (e : Expression) : List (List Char) :=
  e.clauses.map fun c => c.display.toList

theorem toList_display_clause (c : Clause) : c.display.toList = [' ', Clause.separator, ' '].intercalate c.pieces := by
  rw [Clause.display, spaced, String.toList_intercalate, String.toList_ofList, List.map_map]
  rfl

theorem toList_display_expression (e : Expression) :
    e.display.toList = [' ', Expression.separator, ' '].intercalate e.pieces := by
  rw [Expression.display, spaced, String.toList_intercalate, String.toList_ofList, List.map_map]
  rfl

theorem exists_isTermName_of_mem_pieces (hc : c.Named flags) (hp : p ∈ c.pieces) :
    ∃ n, IsTermName n ∧ p = n.toList := by
  obtain ⟨t, ht, rfl⟩ := List.mem_map.1 hp
  obtain ⟨n, hn, rfl⟩ := hc t ht
  exact ⟨n, hn, congrArg String.toList (display_ofName flags n)⟩

theorem writesClause_of_padded (hc : c.Named flags) (hp : Padded c.display.toList p) : WritesClause flags p c := by
  rw [toList_display_clause] at hp
  refine Text.exists_cut_spaced (by decide) c.terms_ne_nil (fun t ht => ?_) (fun t ht q hq => ?_) hp
  · obtain ⟨n, hn, hq⟩ := exists_isTermName_of_mem_pieces hc (List.mem_map_of_mem ht)
    obtain ⟨d, hd⟩ := hn.exists_mem
    rw [hq]
    exact ⟨List.ne_nil_of_mem hd, fun h => (hn.plain _ h).2.2.1 rfl⟩
  · obtain ⟨n, hn, rfl⟩ := hc t ht
    rw [Option.elim_some, display_ofName] at hq
    exact writesTerm_of_padded hn hq

/-- Nothing in the text of a clause separates clauses. -/
theorem separator_notMem_display (hc : c.Named flags) : Expression.separator ∉ c.display.toList := by
  rw [toList_display_clause, Text.mem_intercalate_spaced (by decide) (by decide)]
  rintro ⟨q, hq, hmem⟩
  obtain ⟨n, hn, rfl⟩ := exists_isTermName_of_mem_pieces hc hq
  exact (hn.plain _ hmem).2.1 rfl

theorem exists_mem_display (hc : c.Named flags) : ∃ d ∈ c.display.toList, isBlank d = false := by
  obtain ⟨t, ht⟩ := List.exists_mem_of_ne_nil _ c.terms_ne_nil
  obtain ⟨n, hn, hq⟩ := exists_isTermName_of_mem_pieces hc (List.mem_map_of_mem ht)
  obtain ⟨d, hd⟩ := hn.exists_mem
  obtain ⟨hblank, -, hsep, -⟩ := hn.plain d hd
  refine ⟨d, ?_, hblank⟩
  rw [toList_display_clause, Text.mem_intercalate_spaced hblank hsep]
  exact ⟨_, List.mem_map_of_mem ht, hq ▸ hd⟩

end

section

variable {e : Expression}

theorem writesExpression_display (he : ∀ c ∈ e.clauses, c.Named flags) :
    WritesExpression flags e.display.toList e := by
  rw [toList_display_expression]
  refine Text.exists_cut_spaced (by decide) e.clauses_ne_nil (fun c hc => ?_) (fun c hc q hq => ?_) (Text.padded_self _)
  · obtain ⟨d, hd, -⟩ := exists_mem_display (he c hc)
    exact ⟨List.ne_nil_of_mem hd, separator_notMem_display (he c hc)⟩
  · exact writesClause_of_padded (he c hc) hq

theorem exists_mem_display_expression (he : ∀ c ∈ e.clauses, c.Named flags) :
    ∃ d ∈ e.display.toList, isBlank d = false := by
  obtain ⟨c, hc⟩ := List.exists_mem_of_ne_nil _ e.clauses_ne_nil
  obtain ⟨d, hd, hblank⟩ := exists_mem_display (he c hc)
  have hsep : d ≠ Expression.separator := fun h => separator_notMem_display (he c hc) (h ▸ hd)
  refine ⟨d, ?_, hblank⟩
  rw [toList_display_expression, Text.mem_intercalate_spaced hblank hsep]
  exact ⟨_, List.mem_map_of_mem hc, hd⟩

/-! ## What comes back -/

/-- Texts that are joined without a separator are a single one. -/
theorem exists_eq_singleton {sep : Char} {ls : List (List Char)} (hne : ls ≠ [])
    (h : sep ∉ [' ', sep, ' '].intercalate ls) : ∃ l, ls = [l] := by
  cases ls with
  | nil => exact absurd rfl hne
  | cons l ls =>
    by_cases hnil : ls = []
    · exact ⟨l, by rw [hnil]⟩
    · rw [List.intercalate_cons_of_ne_nil hnil] at h
      simp at h

/-- An expression without separators in its text is a single term. -/
theorem exists_terms_eq (he : Expression.separator ∉ e.display.toList) (hc : Clause.separator ∉ e.display.toList) :
    ∃ t, e.clauses.map Clause.terms = [[t]] := by
  have hclauses : e.pieces ≠ [] := by simpa [Expression.pieces] using e.clauses_ne_nil
  obtain ⟨q, hq⟩ := exists_eq_singleton hclauses (toList_display_expression e ▸ he)
  rw [toList_display_expression, hq, List.intercalate_singleton] at hc
  obtain ⟨c, hcs, rfl⟩ := List.map_eq_singleton_iff.1 hq
  have hterms : c.pieces ≠ [] := by simpa [Clause.pieces] using c.terms_ne_nil
  obtain ⟨q', hq'⟩ := exists_eq_singleton hterms (toList_display_clause c ▸ hc)
  obtain ⟨t, ht, -⟩ := List.map_eq_singleton_iff.1 hq'
  exact ⟨t, by rw [hcs, List.map_singleton, ht]⟩

/-- The text of a single term is that of its atom. -/
theorem display_of_terms_eq {a : Atom} (h : e.clauses.map Clause.terms = [[some a]]) : e.display = a.display := by
  obtain ⟨c, hcs, hts⟩ := List.map_eq_singleton_iff.1 h
  rw [← String.toList_inj, toList_display_expression, Expression.pieces, hcs, List.map_singleton,
    List.intercalate_singleton, toList_display_clause, Clause.pieces, hts, List.map_singleton,
    List.intercalate_singleton, Option.elim_some]

theorem exists_isTermName_of_terms_eq (he : ∀ c ∈ e.clauses, c.Named flags) {t : Option Atom}
    (h : e.clauses.map Clause.terms = [[t]]) :
    ∃ n, IsTermName n ∧ t = some (Atom.ofName flags n) ∧ Name.ofText e.display = n := by
  obtain ⟨c, hcs, hts⟩ := List.map_eq_singleton_iff.1 h
  obtain ⟨n, hn, rfl⟩ := he c (hcs ▸ List.mem_cons_self) t (hts ▸ List.mem_cons_self)
  refine ⟨n, hn, rfl, ?_⟩
  rw [display_of_terms_eq h, display_ofName]
  exact Name.ofText_eq_self fun c hc => (hn.plain c hc).1

theorem reread_of_terms_eq (h : e.clauses.map Clause.terms = [[some (.flag n)]]) :
    (Requirement.expression e).reread = .atom (.flag n) := by
  obtain ⟨cs, hcs⟩ := e
  obtain ⟨⟨ts, hts⟩, rfl, rfl⟩ := List.map_eq_singleton_iff.1 h
  rfl

theorem reread_eq_self (h : ∀ n, e.clauses.map Clause.terms ≠ [[some (.flag n)]]) :
    (Requirement.expression e).reread = .expression e := by
  unfold Requirement.reread
  split
  · next n _ _ heq =>
    cases heq
    exact absurd rfl (h n)
  · rfl

theorem writes_display (hflags : ∀ n ∈ flags, Expression.separator ∉ n.toList ∧ Clause.separator ∉ n.toList)
    (he : ∀ c ∈ e.clauses, c.Named flags) : Writes flags e.display (Requirement.expression e).reread := by
  have hnot := exists_mem_display_expression he
  by_cases hsingle : ∃ n, e.clauses.map Clause.terms = [[some (.flag n)]]
  · obtain ⟨n, hn⟩ := hsingle
    obtain ⟨m, -, hm, hname⟩ := exists_isTermName_of_terms_eq he hn
    obtain ⟨hmem, rfl⟩ : m ∈ flags ∧ m = n := by
      unfold Atom.ofName at hm
      split at hm
      · next hmem => exact ⟨hmem, by cases hm; rfl⟩
      · cases hm
    rw [reread_of_terms_eq hn]
    have hflag := Writes.flag hnot (hname.symm ▸ hmem)
    rwa [hname] at hflag
  · rw [reread_eq_self fun n hn => hsingle ⟨n, hn⟩]
    -- a flag has no separators, so the text would be a single term, which is not a flag
    refine .expression hnot (fun hflag => ?_) (writesExpression_display he)
    obtain ⟨hclause, hterm⟩ := hflags _ hflag
    rw [Name.ofText, String.toList_ofList, Text.mem_normalize (by decide) (by decide)] at hclause hterm
    obtain ⟨t, ht⟩ := exists_terms_eq hclause hterm
    obtain ⟨n, -, rfl, hname⟩ := exists_isTermName_of_terms_eq he ht
    rw [hname] at hflag
    rw [Atom.ofName, if_pos hflag] at ht
    exact hsingle ⟨n, ht⟩

end

/-- A requirement that was read comes back from its text, but for the clause around a single flag. -/
theorem ofText_display {text : String} {r : Requirement}
    (hflags : ∀ n ∈ flags, Expression.separator ∉ n.toList ∧ Clause.separator ∉ n.toList)
    (h : Requirement.ofText flags text = .ok r) (hfree : r ≠ .free)
    (hterms : ∀ e, r = .expression e → ∀ c ∈ e.clauses, none ∉ c.terms) :
    Requirement.ofText flags r.display = .ok r.reread ∧ r.reread.display = r.display := by
  refine ⟨ofText_eq_ok.2 ?_, display_reread r⟩
  cases ofText_eq_ok.1 h with
  | free _ => exact absurd rfl hfree
  | flag hnot hflag =>
    have hself : Name.ofText (Name.ofText text) = Name.ofText text :=
      Name.ofText_eq_self fun c hc => Name.ofText_no_blank hc
    have hnot' : ∃ c ∈ (Name.ofText text).toList, isBlank c = false := by
      have hne : Text.normalize text.toList ≠ [] := fun h => not_forall_blank.2 hnot (Text.normalize_eq_nil.1 h)
      obtain ⟨c, hc⟩ := List.exists_mem_of_ne_nil _ hne
      have hmem : c ∈ (Name.ofText text).toList := by rwa [Name.ofText, String.toList_ofList]
      exact ⟨c, hmem, Name.ofText_no_blank hmem⟩
    have hflag' := Writes.flag hnot' (hself.symm ▸ hflag)
    rwa [hself] at hflag'
  | @expression e _ _ he =>
    refine writes_display hflags fun c hc t ht => ?_
    cases t with
    | none => exact absurd ht (hterms e rfl c hc)
    | some a =>
      obtain ⟨n, hn, rfl⟩ := exists_isTermName he hc ht
      exact ⟨n, hn, rfl⟩

/-- The text `hook & Lamp_shop | rope`, where the lamp shop is a flag, is read as what it was printed from. -/
theorem ofText_display_lampShop :
    Requirement.ofText (FlagNames.ofTexts ["Lamp shop"] []) "hook & Lamp_shop | rope" = .ok (.expression
      ⟨[⟨[some (.reference "hook"), some (.flag "Lamp_shop")], by simp⟩, ⟨[some (.reference "rope")], by simp⟩],
        by simp⟩) := by
  have h : Requirement.ofText (FlagNames.ofTexts ["Lamp shop"] []) "hook&Lamp shop|rope|" = .ok (.expression
      ⟨[⟨[some (.reference "hook"), some (.flag "Lamp_shop")], by simp⟩, ⟨[some (.reference "rope")], by simp⟩],
        by simp⟩) := by
    rfl
  refine (ofText_display ?_ h nofun ?_).1
  · rintro n (hn | hn)
    · obtain rfl : n = "Lamp_shop" := List.mem_singleton.1 hn
      decide
    · exact absurd hn List.not_mem_nil
  · intro e he c hc
    cases he
    simp only [List.mem_cons, List.not_mem_nil, or_false] at hc
    rcases hc with rfl | rfl <;> simp

end Progression
