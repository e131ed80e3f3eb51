import Progression.Proofs.Failing
import Progression.Proofs.Text.Pieces
import Progression.Requirement.Parser

/-!
# The grammar of requirements

What a text writes is a relation between texts and requirements, level by level: a term is a blank or a name, a clause
is cut into terms and an expression into clauses. The reader reads what is written and nothing else
(`ofText_eq_ok`), and a text writes something unless a clause in it has no terms or a sign would group its terms
(`exists_writes`).
-/

namespace Progression

open Text (Cut isBlank)

/-- A blank text writes a placeholder, and a text without grouping signs the atom of its name. -/
inductive WritesTerm (flags : FlagNames) (s : List Char) : Option Atom → Prop
  | placeholder (blank : ∀ c ∈ s, isBlank c = true) : WritesTerm flags s none
  | name (notBlank : ∃ c ∈ s, isBlank c = false) (ungrouped : ∀ c ∈ s, c ∉ groupingSigns) :
    WritesTerm flags s (some (Atom.ofName flags (String.ofList (Text.normalize s))))

/-- The pieces of the text write the terms of the clause, one by one. -/
def WritesClause (flags : FlagNames) (s : List Char) (c : Clause) : Prop :=
  ∃ ps, Cut Clause.separator s ps ∧ List.Forall₂ (WritesTerm flags) ps c.terms

/-- The pieces of the text write the clauses of the expression, one by one. -/
def WritesExpression (flags : FlagNames) (s : List Char) (e : Expression) : Prop :=
  ∃ ps, Cut Expression.separator s ps ∧ List.Forall₂ (WritesClause flags) ps e.clauses

/-- A blank text writes that nothing is required, the name of a flag that flag, and any other text an expression. -/
inductive Writes (flags : FlagNames) (s : String) : Requirement → Prop
  | free (blank : ∀ c ∈ s.toList, isBlank c = true) : Writes flags s .free
  | flag (notBlank : ∃ c ∈ s.toList, isBlank c = false) (isFlag : Name.ofText s ∈ flags) :
    Writes flags s (.atom (.flag (Name.ofText s)))
  | expression {e : Expression} (notBlank : ∃ c ∈ s.toList, isBlank c = false) (noFlag : Name.ofText s ∉ flags)
    (written : WritesExpression flags s.toList e) : Writes flags s (.expression e)

variable {flags : FlagNames} {s : List Char} {text whole : String}

/-! ## The reader and the grammar -/

theorem not_forall_blank : (¬ ∀ c ∈ s, isBlank c = true) ↔ ∃ c ∈ s, isBlank c = false := by
  simp only [not_forall, Bool.not_eq_true, exists_prop]

theorem isBlank_groupingSigns {c : Char} (h : c ∈ groupingSigns) : c ≠ '_' ∧ isBlank c = false := by
  have hall : (groupingSigns.all fun d => d != '_' && !isBlank d) = true := rfl
  simpa using List.all_eq_true.1 hall c h

theorem mem_groupingSigns_normalize {c : Char} (h : c ∈ groupingSigns) : c ∈ Text.normalize s ↔ c ∈ s :=
  Text.mem_normalize (isBlank_groupingSigns h).1 (isBlank_groupingSigns h).2

theorem any_groupingSigns_normalize :
    ((Text.normalize s).any fun c => decide (c ∈ groupingSigns)) = false ↔ ∀ c ∈ s, c ∉ groupingSigns := by
  rw [List.any_eq_false]
  simp only [decide_eq_true_eq]
  exact ⟨fun h c hc hsign => h c ((mem_groupingSigns_normalize hsign).2 hc) hsign,
    fun h c hc hsign => h c ((mem_groupingSigns_normalize hsign).1 hc) hsign⟩

theorem ofTerm_eq_ok {t : Option Atom} : Atom.ofTerm flags s = .ok t ↔ WritesTerm flags s t := by
  unfold Atom.ofTerm
  dsimp only
  by_cases hblank : ∀ c ∈ s, isBlank c = true
  · rw [if_pos (Text.normalize_eq_nil.2 hblank)]
    constructor
    · intro h
      cases h
      exact .placeholder hblank
    · rintro (_ | ⟨hs, -⟩)
      · rfl
      · exact absurd hblank (not_forall_blank.2 hs)
  · rw [if_neg (mt Text.normalize_eq_nil.1 hblank)]
    split
    · next hgroup =>
      refine ⟨nofun, ?_⟩
      rintro (h | ⟨-, hs⟩)
      · exact absurd h hblank
      · rw [any_groupingSigns_normalize.2 hs] at hgroup
        cases hgroup
    · next hgroup =>
      constructor
      · intro h
        cases h
        exact .name (not_forall_blank.1 hblank) (any_groupingSigns_normalize.1 (Bool.not_eq_true _ ▸ hgroup))
      · rintro (h | _)
        · exact absurd h hblank
        · rfl

theorem Clause.of?_eq_some {ts : List (Option Atom)} {c : Clause} : Clause.of? ts = some c ↔ ts = c.terms := by
  unfold Clause.of?
  split
  · exact ⟨fun h => by cases h; rfl, fun h => by subst h; rfl⟩
  · next h =>
    constructor
    · intro hnone
      cases hnone
    · rintro rfl
      exact absurd c.terms_ne_nil h

theorem Expression.of?_eq_some {cs : List Clause} {e : Expression} : Expression.of? cs = some e ↔ cs = e.clauses := by
  unfold Expression.of?
  split
  · exact ⟨fun h => by cases h; rfl, fun h => by subst h; rfl⟩
  · next h =>
    constructor
    · intro hnone
      cases hnone
    · rintro rfl
      exact absurd e.clauses_ne_nil h

/-- What is made of the pieces of a text, where each is made in a way that is known. -/
theorem mapM_pieces_eq_ok {β : Type} {f : List Char → Except Failure β} {R : List Char → β → Prop}
    (hf : ∀ p b, f p = .ok b ↔ R p b) {sep : Char} {l : List β} :
    (Text.pieces sep s).mapM f = .ok l ↔ ∃ ps, Cut sep s ps ∧ List.Forall₂ R ps l := by
  simp only [mapM_eq_ok, hf]
  constructor
  · exact fun h => ⟨_, Text.cut_iff.2 rfl, h⟩
  · rintro ⟨ps, hcut, h⟩
    rwa [Text.cut_iff.1 hcut]

theorem ofPiece_eq_ok {c : Clause} : Clause.ofPiece flags whole s = .ok c ↔ WritesClause flags s c := by
  unfold Clause.ofPiece WritesClause
  rw [bind_eq_ok, ← mapM_pieces_eq_ok fun _ _ => ofTerm_eq_ok]
  constructor
  · rintro ⟨ts, hts, h⟩
    split at h
    · next hc =>
      cases h
      exact Clause.of?_eq_some.1 hc ▸ hts
    · cases within_eq_ok.1 h
  · intro h
    refine ⟨c.terms, h, ?_⟩
    rw [Clause.of?_eq_some.2 rfl]
    rfl

theorem ofText_expression_eq_ok {e : Expression} :
    Expression.ofText flags text = .ok e ↔ WritesExpression flags text.toList e := by
  unfold Expression.ofText WritesExpression
  rw [bind_eq_ok, ← mapM_pieces_eq_ok fun _ _ => ofPiece_eq_ok]
  constructor
  · rintro ⟨cs, hcs, h⟩
    split at h
    · next he =>
      cases h
      exact Expression.of?_eq_some.1 he ▸ hcs
    · cases within_eq_ok.1 h
  · intro h
    refine ⟨e.clauses, h, ?_⟩
    rw [Expression.of?_eq_some.2 rfl]
    rfl

theorem ofText_eq_ok {r : Requirement} : Requirement.ofText flags text = .ok r ↔ Writes flags text r := by
  unfold Requirement.ofText
  by_cases hblank : ∀ c ∈ text.toList, isBlank c = true
  · rw [if_pos (Text.trim_eq_nil.2 hblank)]
    constructor
    · intro h
      cases h
      exact .free hblank
    · rintro (_ | ⟨h, -⟩ | ⟨h, -⟩)
      · rfl
      · exact absurd hblank (not_forall_blank.2 h)
      · exact absurd hblank (not_forall_blank.2 h)
  · have hnot : ∃ c ∈ text.toList, isBlank c = false := not_forall_blank.1 hblank
    rw [if_neg (mt Text.trim_eq_nil.1 hblank)]
    by_cases hflag : Name.ofText text ∈ flags
    · rw [if_pos hflag]
      constructor
      · intro h
        cases h
        exact .flag hnot hflag
      · rintro (h | _ | ⟨-, h, -⟩)
        · exact absurd h hblank
        · rfl
        · exact absurd hflag h
    · rw [if_neg hflag, map_eq_ok]
      constructor
      · rintro ⟨e, he, rfl⟩
        exact .expression hnot hflag (ofText_expression_eq_ok.1 he)
      · rintro (h | ⟨-, h⟩ | ⟨-, -, he⟩)
        · exact absurd h hblank
        · exact absurd h hflag
        · exact ⟨_, ofText_expression_eq_ok.2 he, rfl⟩

/-! ## What is accepted -/

theorem exists_writesTerm : (∃ t, WritesTerm flags s t) ↔ ∀ c ∈ s, c ∉ groupingSigns := by
  constructor
  · rintro ⟨_, hblank | ⟨-, h⟩⟩
    · exact fun c hc hsign => Bool.false_ne_true ((isBlank_groupingSigns hsign).2.symm.trans (hblank c hc))
    · exact h
  · intro h
    by_cases hblank : ∀ c ∈ s, isBlank c = true
    · exact ⟨none, .placeholder hblank⟩
    · exact ⟨_, .name (not_forall_blank.1 hblank) h⟩

theorem ungrouped_iff {sep : Char} {ps : List (List Char)} (h : Cut sep s ps) (hsep : sep ∉ groupingSigns) :
    (∀ c ∈ s, c ∉ groupingSigns) ↔ ∀ p ∈ ps, ∀ c ∈ p, c ∉ groupingSigns := by
  have hne : ∀ {c}, c ∈ groupingSigns → c ≠ sep := fun hc heq => hsep (heq ▸ hc)
  constructor
  · exact fun hs p hp c hc hsign => hs c ((h.mem_iff (hne hsign)).2 ⟨p, hp, hc⟩) hsign
  · intro hps c hc hsign
    obtain ⟨p, hp, hcp⟩ := (h.mem_iff (hne hsign)).1 hc
    exact hps p hp c hcp hsign

theorem exists_writesClause : (∃ c, WritesClause flags s c) ↔
    (∃ c ∈ s, c ≠ Clause.separator) ∧ ∀ c ∈ s, c ∉ groupingSigns := by
  constructor
  · rintro ⟨c, ps, hcut, hps⟩
    refine ⟨hcut.ne_nil_iff.1 ((ne_nil_iff_of_forall₂ hps).2 c.terms_ne_nil), ?_⟩
    exact (ungrouped_iff hcut (by decide)).2 fun p hp => exists_writesTerm.1 (exists_forall₂.1 ⟨_, hps⟩ p hp)
  · rintro ⟨hne, hs⟩
    have hcut : Cut Clause.separator s (Text.pieces Clause.separator s) := Text.cut_iff.2 rfl
    obtain ⟨ts, hts⟩ := exists_forall₂.2 fun p hp =>
      (@exists_writesTerm flags p).2 ((ungrouped_iff hcut (by decide)).1 hs p hp)
    exact ⟨⟨ts, (ne_nil_iff_of_forall₂ hts).1 (hcut.ne_nil_iff.2 hne)⟩, _, hcut, hts⟩

/-- A text writes an expression if it has a clause, every clause has a term and no sign would group terms. -/
theorem exists_writesExpression : (∃ e, WritesExpression flags s e) ↔
    (∃ c ∈ s, c ≠ Expression.separator) ∧
      (∃ ps, Cut Expression.separator s ps ∧ ∀ p ∈ ps, ∃ c ∈ p, c ≠ Clause.separator) ∧
      ∀ c ∈ s, c ∉ groupingSigns := by
  constructor
  · rintro ⟨e, ps, hcut, hps⟩
    have hclauses : ∀ p ∈ ps, _ := fun p hp => exists_writesClause.1 (exists_forall₂.1 ⟨_, hps⟩ p hp)
    refine ⟨hcut.ne_nil_iff.1 ((ne_nil_iff_of_forall₂ hps).2 e.clauses_ne_nil), ⟨ps, hcut, fun p hp => ?_⟩, ?_⟩
    · exact (hclauses p hp).1
    · exact (ungrouped_iff hcut (by decide)).2 fun p hp => (hclauses p hp).2
  · rintro ⟨hne, ⟨ps, hcut, hterms⟩, hs⟩
    obtain ⟨cs, hcs⟩ := exists_forall₂.2 fun p hp =>
      (@exists_writesClause flags p).2 ⟨hterms p hp, (ungrouped_iff hcut (by decide)).1 hs p hp⟩
    exact ⟨⟨cs, (ne_nil_iff_of_forall₂ hcs).1 (hcut.ne_nil_iff.2 hne)⟩, ps, hcut, hcs⟩

theorem exists_writes : (∃ r, Writes flags text r) ↔ (∀ c ∈ text.toList, isBlank c = true) ∨ Name.ofText text ∈ flags ∨
    ∃ e, WritesExpression flags text.toList e := by
  constructor
  · rintro ⟨_, h | ⟨-, h⟩ | ⟨-, -, h⟩⟩
    · exact .inl h
    · exact .inr (.inl h)
    · exact .inr (.inr ⟨_, h⟩)
  · intro h
    by_cases hblank : ∀ c ∈ text.toList, isBlank c = true
    · exact ⟨_, .free hblank⟩
    have hnot := not_forall_blank.1 hblank
    by_cases hflag : Name.ofText text ∈ flags
    · exact ⟨_, .flag hnot hflag⟩
    obtain ⟨e, he⟩ := (h.resolve_left hblank).resolve_left hflag
    exact ⟨_, .expression hnot hflag he⟩

/-! ## The names in an expression -/

/-- What a term can be called: no blank, no separator and no sign that groups stands in it. -/
structure IsTermName (n : Name) : Prop where
  nonempty : n ≠ ""
  plain : ∀ c ∈ n.toList, isBlank c = false ∧ c ≠ Expression.separator ∧ c ≠ Clause.separator ∧ c ∉ groupingSigns

/-- The atoms of an expression that is written are those of names of terms. -/
theorem exists_isTermName {e : Expression} (h : WritesExpression flags s e) {c : Clause} (hc : c ∈ e.clauses)
    {a : Atom} (ha : some a ∈ c.terms) : ∃ n, IsTermName n ∧ a = Atom.ofName flags n := by
  obtain ⟨ps, hcut, hps⟩ := h
  obtain ⟨p, hp, qs, hcut', hqs⟩ := exists_of_mem_right hps hc
  obtain ⟨q, hq, hterm⟩ := exists_of_mem_right hqs ha
  cases hterm with
  | name hnot hs =>
    refine ⟨_, ⟨fun hempty => ?_, fun d hd => ?_⟩, rfl⟩
    · rw [← String.toList_inj, String.toList_ofList] at hempty
      exact not_forall_blank.2 hnot (Text.normalize_eq_nil.1 hempty)
    · rw [String.toList_ofList] at hd
      have hblank := Text.not_isBlank_of_mem_normalize hd
      by_cases hunderscore : d = '_'
      · subst hunderscore
        decide
      · have hdq : d ∈ q := (Text.mem_normalize hunderscore hblank).1 hd
        have hterm : d ≠ Clause.separator := fun h => hcut'.notMem q hq (h ▸ hdq)
        have hdp : d ∈ p := (hcut'.mem_iff hterm).2 ⟨q, hq, hdq⟩
        exact ⟨hblank, fun h => hcut.notMem p hp (h ▸ hdp), hterm, hs d hdq⟩

/-- The reader reads what a text writes and accepts every text that writes something; the names that it takes from the
terms of an expression are plain. -/
theorem ofText_grammar (flags : FlagNames) (text : String) :
    (∀ r, Requirement.ofText flags text = .ok r ↔ Writes flags text r) ∧
    ((∃ r, Requirement.ofText flags text = .ok r) ↔
      (∀ c ∈ text.toList, isBlank c = true) ∨ Name.ofText text ∈ flags ∨
      (∃ c ∈ text.toList, c ≠ Expression.separator) ∧
        (∃ ps, Cut Expression.separator text.toList ps ∧ ∀ p ∈ ps, ∃ c ∈ p, c ≠ Clause.separator) ∧
        ∀ c ∈ text.toList, c ∉ groupingSigns) ∧
    ∀ e, Requirement.ofText flags text = .ok (.expression e) → ∀ c ∈ e.clauses, ∀ a, some a ∈ c.terms →
      ∃ n, IsTermName n ∧ a = Atom.ofName flags n := by
  refine ⟨fun _ => ofText_eq_ok, ?_, fun e h c hc a ha => ?_⟩
  · simp only [ofText_eq_ok]
    rw [exists_writes, exists_writesExpression]
  · cases ofText_eq_ok.1 h with
    | expression _ _ he => exact exists_isTermName he hc ha

/-- A blank term is a placeholder, and a separator at the end is as none. -/
theorem ofText_grammar_placeholder :
    Requirement.ofText (FlagNames.ofTexts ["Lamp shop"] []) " & Lamp shop|hook|" = .ok (.expression
      ⟨[⟨[none, some (.flag "Lamp_shop")], by simp⟩, ⟨[some (.reference "hook")], by simp⟩], by simp⟩) ∧
    ∃ n, IsTermName n ∧ Atom.flag "Lamp_shop" = Atom.ofName (FlagNames.ofTexts ["Lamp shop"] []) n := by
  have h : Requirement.ofText (FlagNames.ofTexts ["Lamp shop"] []) " & Lamp shop|hook|" = .ok (.expression
      ⟨[⟨[none, some (.flag "Lamp_shop")], by simp⟩, ⟨[some (.reference "hook")], by simp⟩], by simp⟩) := by
    rfl
  exact ⟨h, (ofText_grammar _ _).2.2 _ h _ List.mem_cons_self _ (by simp)⟩

end Progression
