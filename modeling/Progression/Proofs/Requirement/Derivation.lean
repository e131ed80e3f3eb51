import Progression.Proofs.Requirement.Valuation

/-!
# Derivations

What can be derived from what is held, when some names are granted and others are bound to requirements. Derivations
are finite, so nothing is derived on circular support. Derivability is the least valuation that the rules keep
(`Derives.holds_of_closed`), and a requirement is derivable if and only if it holds when exactly the derivable names
do (`derives_iff_holds`).
-/

namespace Progression

/-- What can be derived: the least set of requirements with these rules. -/
inductive Derives (held : Inventory) (granted : Name → Prop) (binds : Name → Requirement → Prop) : Requirement → Prop
  | free : Derives held granted binds .free
  | item {id : ItemId} (h : .item id ∈ held) : Derives held granted binds (.atom (.item id))
  | flag {name : Name} (h : .flag name ∈ held) : Derives held granted binds (.atom (.flag name))
  | literal : Derives held granted binds (.atom (.literal true))
  | granted {n : Name} (h : granted n) : Derives held granted binds (.atom (.reference n))
  | bound {n : Name} {r : Requirement} (h : binds n r) (hr : Derives held granted binds r) :
    Derives held granted binds (.atom (.reference n))
  /-- Some clause, all of whose terms are derivable; placeholders ask for nothing. -/
  | expression {e : Expression} {c : Clause} (hc : c ∈ e.clauses)
    (hterms : ∀ a, some a ∈ c.terms → Derives held granted binds (.atom a)) :
    Derives held granted binds (.expression e)

section

variable {held held' : Inventory} {granted granted' : Name → Prop} {binds binds' : Name → Requirement → Prop}

theorem Derives.mono {r : Requirement} (hheld : ∀ t ∈ held, t ∈ held') (hgranted : ∀ n, granted n → granted' n)
    (hbinds : ∀ n r, binds n r → binds' n r) (h : Derives held granted binds r) : Derives held' granted' binds' r := by
  induction h with
  | free => exact .free
  | item h => exact .item (hheld _ h)
  | flag h => exact .flag (hheld _ h)
  | literal => exact .literal
  | granted h => exact .granted (hgranted _ h)
  | bound h _ ih => exact .bound (hbinds _ _ h) ih
  | expression hc _ ih => exact .expression hc ih

/-- Derivability is least: what is derivable holds under every valuation that the rules for names keep. -/
theorem Derives.holds_of_closed {r : Requirement} {v : Name → Bool} (hgranted : ∀ n, granted n → v n = true)
    (hbinds : ∀ n r, binds n r → r.holds held v = true → v n = true) (h : Derives held granted binds r) :
    r.holds held v = true := by
  induction h with
  | free => rfl
  | item h => exact decide_eq_true h
  | flag h => exact decide_eq_true h
  | literal => rfl
  | granted h => exact hgranted _ h
  | bound h _ ih => exact hbinds _ _ h ih
  | expression hc _ ih => exact Requirement.holds_expression.2 ⟨_, hc, ih⟩

theorem derives_atom_of_holds {a : Atom} {v : Name → Bool}
    (hv : ∀ n, v n = true → Derives held granted binds (.atom (.reference n))) (h : a.holds held v = true) :
    Derives held granted binds (.atom a) := by
  cases a with
  | item id => exact .item (of_decide_eq_true h)
  | flag name => exact .flag (of_decide_eq_true h)
  | literal value =>
    obtain rfl : value = true := h
    exact .literal
  | reference n => exact hv n h

/-- What holds when only derivable names do is derivable. -/
theorem derives_of_holds {r : Requirement} {v : Name → Bool}
    (hv : ∀ n, v n = true → Derives held granted binds (.atom (.reference n))) (h : r.holds held v = true) :
    Derives held granted binds r := by
  cases r with
  | free => exact .free
  | atom a => exact derives_atom_of_holds hv h
  | expression e =>
    obtain ⟨c, hc, hterms⟩ := Requirement.holds_expression.1 h
    exact .expression hc fun a ha => derives_atom_of_holds hv (hterms a ha)

/-- The valuation under which exactly the derivable names hold. -/
noncomputable def derivableNames (held : Inventory) (granted : Name → Prop) (binds : Name → Requirement → Prop)
    (n : Name) : Bool :=
  open Classical in decide (Derives held granted binds (.atom (.reference n)))

theorem derivableNames_eq_true {n : Name} :
    derivableNames held granted binds n = true ↔ Derives held granted binds (.atom (.reference n)) := by
  simp [derivableNames]

theorem derives_iff_holds {r : Requirement} :
    Derives held granted binds r ↔ r.holds held (derivableNames held granted binds) = true := by
  constructor
  · refine fun h => h.holds_of_closed (fun n hn => derivableNames_eq_true.2 (.granted hn)) fun n r hn hr => ?_
    exact derivableNames_eq_true.2 (.bound hn (derives_of_holds (fun _ => derivableNames_eq_true.1) hr))
  · exact derives_of_holds fun _ => derivableNames_eq_true.1

/-- A name is derivable if it is granted, or if a requirement that it is bound to is derivable. -/
theorem derives_reference_iff {n : Name} :
    Derives held granted binds (.atom (.reference n)) ↔ granted n ∨ ∃ r, binds n r ∧ Derives held granted binds r := by
  constructor
  · intro h
    cases h with
    | granted h => exact .inl h
    | bound h hr => exact .inr ⟨_, h, hr⟩
  · rintro (h | ⟨r, h, hr⟩)
    · exact .granted h
    · exact .bound h hr

end

end Progression
