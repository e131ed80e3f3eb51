import Mathlib.Data.List.Basic
import Mathlib.Data.List.TakeWhile
import Progression.Proofs.Failing
import Progression.Text.Blank

/-!
# Pieces of a text

The pieces between the separators of a text, but for empty ones at the end, are the only lists that joined by the
separator give the text back, up to separators at its end (`cut_iff`). Blanks around a piece do not matter where names
are read (`normalize_padded`), so texts that are joined by a separator between blanks have the same pieces up to
blanks (`exists_cut_spaced`).
-/

namespace Progression.Text

/-- The text is the pieces joined by separators and then any number of separators; no piece has a separator in it, and
the last one is not empty. -/
structure Cut (sep : Char) (s : List Char) (ps : List (List Char)) : Prop where
  joined : ∃ k, s = [sep].intercalate ps ++ List.replicate k sep
  notMem : ∀ p ∈ ps, sep ∉ p
  last : ps.getLast? ≠ some []

section

variable {α : Type} {f : α → Bool}

theorem dropTrailing_append_of_forall {l l' : List α} (h : ∀ a ∈ l', f a = true) :
    dropTrailing f (l ++ l') = dropTrailing f l := by
  induction l' using List.reverseRecOn with
  | nil => rw [List.append_nil]
  | append_singleton l' a ih =>
    obtain ⟨hl', ha⟩ := List.forall_mem_append.1 h
    rw [← List.append_assoc, dropTrailing_concat, if_pos (ha a List.mem_cons_self), ih hl']

theorem dropTrailing_eq_self {l : List α} (h : ∀ a ∈ l.getLast?, f a = false) : dropTrailing f l = l := by
  induction l using List.reverseRecOn with
  | nil => rfl
  | append_singleton l a _ =>
    have ha : f a = false := h a (by simp)
    rw [dropTrailing_concat, ha, if_neg Bool.false_ne_true]

theorem last_dropTrailing (l : List α) : ∀ a ∈ (dropTrailing f l).getLast?, f a = false := by
  induction l using List.reverseRecOn with
  | nil => simp
  | append_singleton l a ih =>
    rw [dropTrailing_concat]
    split
    · exact ih
    · next ha =>
      intro b hb
      obtain rfl : a = b := by simpa using hb
      simpa using ha

end

variable {sep : Char} {s p : List Char} {ps : List (List Char)}

/-! ## Splitting and joining -/

theorem notMem_of_mem_splitOn (h : p ∈ s.splitOn sep) : sep ∉ p := by
  induction s generalizing p with
  | nil =>
    rw [List.splitOn_nil, List.mem_singleton] at h
    rw [h]
    exact List.not_mem_nil
  | cons c s ih =>
    rw [List.splitOn_cons_eq_if_modifyHead] at h
    split at h
    · rcases List.mem_cons.1 h with rfl | h
      · exact List.not_mem_nil
      · exact ih h
    · next hc =>
      obtain ⟨q, qs, hq⟩ := List.exists_cons_of_ne_nil (List.splitOn_ne_nil sep s)
      rw [hq] at h ih
      rcases List.mem_cons.1 h with rfl | h
      · have hcs : c ≠ sep := by simpa using hc
        exact fun hmem => (List.mem_cons.1 hmem).elim (fun h => hcs h.symm) (ih List.mem_cons_self)
      · exact ih (List.mem_cons_of_mem q h)

theorem splitOn_replicate (sep : Char) (k : Nat) :
    (List.replicate k sep).splitOn sep = List.replicate (k + 1) [] := by
  induction k with
  | zero => rfl
  | succ k ih =>
    rw [List.replicate_succ, ← List.nil_append (sep :: _), List.splitOn_append_cons_self_of_not_mem List.not_mem_nil,
      ih, ← List.replicate_succ]

/-- Joined pieces are split up again, with an empty piece for each separator at the end. -/
theorem splitOn_joined (hne : ps ≠ []) (h : ∀ p ∈ ps, sep ∉ p) (k : Nat) :
    ([sep].intercalate ps ++ List.replicate k sep).splitOn sep = ps ++ List.replicate k [] := by
  induction ps with
  | nil => exact absurd rfl hne
  | cons p ps ih =>
    obtain ⟨hp, hps⟩ := List.forall_mem_cons.1 h
    by_cases hnil : ps = []
    · subst hnil
      rw [List.intercalate_singleton]
      cases k with
      | zero => rw [List.replicate_zero, List.append_nil, List.splitOn_eq_singleton hp]; rfl
      | succ k =>
        rw [List.replicate_succ, List.splitOn_append_cons_self_of_not_mem hp, splitOn_replicate]
        rfl
    · rw [List.intercalate_cons_of_ne_nil hnil, List.append_assoc, List.append_assoc, List.singleton_append,
        List.splitOn_append_cons_self_of_not_mem hp, ih hnil hps, List.cons_append]

/-- Splitting a text gives its pieces and then empty ones. -/
theorem exists_splitOn_eq (sep : Char) (s : List Char) :
    ∃ k, s.splitOn sep = pieces sep s ++ List.replicate k [] := by
  have hrest : ∀ p ∈ ((s.splitOn sep).reverse.takeWhile List.isEmpty).reverse, p = [] := fun p hp =>
    List.isEmpty_iff.1 (List.mem_takeWhile_imp (List.mem_reverse.1 hp))
  refine ⟨((s.splitOn sep).reverse.takeWhile List.isEmpty).reverse.length, ?_⟩
  rw [← List.eq_replicate_of_mem hrest]
  exact (dropTrailing_append_takeWhile _).symm

/-- The pieces of a text are the only way to cut it. -/
theorem cut_iff : Cut sep s ps ↔ pieces sep s = ps := by
  constructor
  · rintro ⟨⟨k, rfl⟩, hmem, hlast⟩
    have hempty : ∀ j, ∀ p ∈ List.replicate j ([] : List Char), p.isEmpty = true := fun j p hp => by
      rw [List.eq_of_mem_replicate hp]
      rfl
    unfold pieces
    by_cases hnil : ps = []
    · subst hnil
      rw [List.intercalate_nil, List.nil_append, splitOn_replicate]
      exact dropTrailing_append_of_forall (l := []) (hempty (k + 1))
    · rw [splitOn_joined hnil hmem, dropTrailing_append_of_forall (hempty k)]
      refine dropTrailing_eq_self fun p hp => ?_
      have hp' : p ≠ [] := fun h => hlast (h ▸ hp)
      simpa using hp'
  · rintro rfl
    obtain ⟨k, hk⟩ := exists_splitOn_eq sep s
    have hjoin : ∀ t : List Char, [sep].intercalate (t.splitOn sep) = t := fun t => List.intercalate_splitOn sep
    have hmem : ∀ p ∈ pieces sep s, sep ∉ p := fun p hp =>
      notMem_of_mem_splitOn (by rw [hk]; exact List.mem_append_left _ hp)
    refine ⟨?_, hmem, fun h => ?_⟩
    · by_cases hnil : pieces sep s = []
      · rw [hnil, List.nil_append] at hk
        obtain ⟨j, rfl⟩ : ∃ j, k = j + 1 := Nat.exists_eq_succ_of_ne_zero fun h => by
          rw [h] at hk
          exact List.splitOn_ne_nil sep s hk
        refine ⟨j, ?_⟩
        rw [hnil, List.intercalate_nil, List.nil_append, ← hjoin s, hk, ← splitOn_replicate, hjoin]
      · refine ⟨k, ?_⟩
        rw [← hjoin (_ ++ _), splitOn_joined hnil hmem, ← hk, hjoin]
    · exact absurd (last_dropTrailing (f := List.isEmpty) (s.splitOn sep) [] h) (by simp)

/-- A piece without separators before a text that has pieces. -/
theorem Cut.cons (h : Cut sep s ps) (hne : ps ≠ []) (hp : sep ∉ p) : Cut sep (p ++ sep :: s) (p :: ps) := by
  obtain ⟨⟨k, hk⟩, hmem, hlast⟩ := h
  refine ⟨⟨k, ?_⟩, List.forall_mem_cons.2 ⟨hp, hmem⟩, ?_⟩
  · rw [hk, List.intercalate_cons_of_ne_nil hne, List.append_assoc, List.append_assoc, List.singleton_append]
  · rwa [List.getLast?_cons_of_ne_nil hne]

/-- A text that is not empty and has no separators is its only piece. -/
theorem cut_singleton (hp : p ≠ []) (hsep : sep ∉ p) : Cut sep p [p] :=
  ⟨⟨0, (by simp)⟩, by simpa using hsep, by simpa using hp⟩

theorem mem_intercalate {c : Char} {t : List Char} (hc : c ∉ t) : c ∈ t.intercalate ps ↔ ∃ p ∈ ps, c ∈ p := by
  induction ps with
  | nil => simp
  | cons p ps ih =>
    by_cases hnil : ps = []
    · simp [hnil]
    · simp [List.intercalate_cons_of_ne_nil hnil, hc, ih]

/-- A character that is no separator stands in the text if it stands in a piece. -/
theorem Cut.mem_iff {c : Char} (h : Cut sep s ps) (hc : c ≠ sep) : c ∈ s ↔ ∃ p ∈ ps, c ∈ p := by
  obtain ⟨⟨k, rfl⟩, -, -⟩ := h
  have hend : c ∉ List.replicate k sep := fun h => hc (List.eq_of_mem_replicate h)
  rw [List.mem_append, or_iff_left hend, mem_intercalate (by simpa using hc)]

/-- A text has no pieces if it has nothing but separators. -/
theorem Cut.ne_nil_iff (h : Cut sep s ps) : ps ≠ [] ↔ ∃ c ∈ s, c ≠ sep := by
  constructor
  · intro hne
    obtain ⟨p, hp⟩ := List.getLast?_isSome.2 hne |> Option.isSome_iff_exists.1
    obtain ⟨c, hc⟩ := List.exists_mem_of_ne_nil p fun hnil => h.last (hnil ▸ hp)
    have hmem : p ∈ ps := List.mem_of_getLast? hp
    have hcsep : c ≠ sep := fun hcs => h.notMem p hmem (hcs ▸ hc)
    exact ⟨c, (h.mem_iff hcsep).2 ⟨p, hmem, hc⟩, hcsep⟩
  · rintro ⟨c, hc, hcsep⟩ rfl
    obtain ⟨p, hp, -⟩ := (h.mem_iff hcsep).1 hc
    exact absurd hp List.not_mem_nil

/-! ## Blanks around a text -/

theorem dropTrailing_eq_nil {α : Type} {f : α → Bool} {l : List α} :
    dropTrailing f l = [] ↔ ∀ a ∈ l, f a = true := by
  rw [dropTrailing, List.reverse_eq_nil_iff, List.dropWhile_eq_nil_iff]
  simp only [List.mem_reverse]

/-- `Padded l p` says that `p` is `l` between blanks. -/
def Padded (l p : List Char) : Prop :=
  ∃ a b, (∀ c ∈ a, isBlank c = true) ∧ (∀ c ∈ b, isBlank c = true) ∧ p = a ++ l ++ b

theorem padded_self (l : List Char) : Padded l l :=
  ⟨[], [], nofun, nofun, (List.append_nil l).symm⟩

theorem padded_trim (s : List Char) : Padded (trim s) s := by
  refine ⟨s.takeWhile isBlank, ((s.dropWhile isBlank).reverse.takeWhile isBlank).reverse,
    fun c => List.mem_takeWhile_imp, fun c hc => List.mem_takeWhile_imp (List.mem_reverse.1 hc), ?_⟩
  rw [trim, List.append_assoc, dropTrailing_append_takeWhile, List.takeWhile_append_dropWhile]

theorem trim_eq_nil : trim s = [] ↔ ∀ c ∈ s, isBlank c = true := by
  constructor
  · intro h
    obtain ⟨a, b, ha, hb, hs⟩ := padded_trim s
    rw [hs, h, List.append_nil]
    exact List.forall_mem_append.2 ⟨ha, hb⟩
  · intro h
    rw [trim, dropTrailing_eq_nil]
    exact fun c hc => h c ((List.dropWhile_suffix _).mem hc)

theorem normalize_eq_nil : normalize s = [] ↔ ∀ c ∈ s, isBlank c = true := by
  rw [normalize, List.map_eq_nil_iff, trim_eq_nil]

/-- The characters of a name are those of its text, but for blanks. -/
theorem mem_normalize {c : Char} (hc : c ≠ '_') (hblank : isBlank c = false) : c ∈ normalize s ↔ c ∈ s := by
  obtain ⟨a, b, ha, hb, hs⟩ := padded_trim s
  have hmem : c ∈ s ↔ c ∈ trim s := by
    have hends : ∀ l : List Char, (∀ d ∈ l, isBlank d = true) → c ∉ l := fun l h hl => by
      rw [h c hl] at hblank
      cases hblank
    conv_lhs => rw [hs]
    rw [List.mem_append, List.mem_append, or_iff_left (hends b hb), or_iff_right (hends a ha)]
  rw [hmem, normalize, List.mem_map]
  constructor
  · rintro ⟨d, hd, h⟩
    split at h
    · exact absurd h.symm hc
    · exact h ▸ hd
  · exact fun h => ⟨c, h, by rw [hblank]; rfl⟩

/-- Blanks around a text fall away. -/
theorem trim_padded {l : List Char} (h : Padded l p) : trim p = trim l := by
  obtain ⟨a, b, ha, hb, rfl⟩ := h
  rw [trim, List.append_assoc, List.dropWhile_append_of_pos ha, List.dropWhile_append]
  split
  · next hl =>
    rw [List.isEmpty_iff] at hl
    rw [trim, hl, List.dropWhile_eq_nil_iff.2 hb]
  · rw [dropTrailing_append_of_forall hb, trim]

theorem trim_eq_self (h : ∀ c ∈ s, isBlank c = false) : trim s = s := by
  have hdrop : s.dropWhile isBlank = s := by
    rw [List.dropWhile_eq_self_iff]
    exact fun hl => by simp [h _ (List.getElem_mem hl)]
  rw [trim, hdrop]
  exact dropTrailing_eq_self fun c hc => h c (List.mem_of_getLast? hc)

/-- Blanks around a text make no other name. -/
theorem normalize_padded {l : List Char} (h : Padded l p) : normalize p = normalize l := by
  rw [normalize, trim_padded h, normalize]

/-- A text without blanks is a name as it is. -/
theorem normalize_eq_self (h : ∀ c ∈ s, isBlank c = false) : normalize s = s := by
  rw [normalize, trim_eq_self h]
  exact (List.map_congr_left fun c hc => by rw [h c hc]; rfl).trans (List.map_id s)

theorem mem_intercalate_spaced {c : Char} {ls : List (List Char)} (hc : isBlank c = false) (hsep : c ≠ sep) :
    c ∈ [' ', sep, ' '].intercalate ls ↔ ∃ l ∈ ls, c ∈ l := by
  have hspace : c ≠ ' ' := fun h => absurd (h ▸ hc) (by decide)
  exact mem_intercalate (by simp [hsep, hspace])

/-- Texts joined by a separator between blanks are the pieces of what they make, up to blanks around them. So the
pieces are related to what the texts were made of if padded texts are. -/
theorem exists_cut_spaced {α : Type} {f : α → List Char} {R : List Char → α → Prop} {l : List α}
    (hsep : isBlank sep = false) (hne : l ≠ []) (h : ∀ a ∈ l, f a ≠ [] ∧ sep ∉ f a)
    (hR : ∀ a ∈ l, ∀ p, Padded (f a) p → R p a) (hs : Padded ([' ', sep, ' '].intercalate (l.map f)) s) :
    ∃ ps, Cut sep s ps ∧ List.Forall₂ R ps l := by
  have hblanks : ∀ a : List Char, (∀ c ∈ a, isBlank c = true) → sep ∉ a := fun a ha hmem => by
    rw [ha sep hmem] at hsep
    cases hsep
  induction l generalizing s with
  | nil => exact absurd rfl hne
  | cons x l ih =>
    obtain ⟨⟨hx, hxsep⟩, hl⟩ := List.forall_mem_cons.1 h
    obtain ⟨hRx, hRl⟩ := List.forall_mem_cons.1 hR
    obtain ⟨a, b, ha, hb, rfl⟩ := hs
    rw [List.map_cons]
    by_cases hnil : l = []
    · subst hnil
      rw [List.map_nil, List.intercalate_singleton]
      refine ⟨[a ++ f x ++ b], cut_singleton (by simp [hx]) ?_, .cons (hRx _ ⟨a, b, ha, hb, rfl⟩) .nil⟩
      simp [hblanks a ha, hblanks b hb, hxsep]
    · -- the blank before the separator belongs to the first text, the one after it to what follows
      have hspace : ∀ c ∈ [' '], isBlank c = true := List.forall_mem_singleton.2 rfl
      obtain ⟨ps, hcut, hps⟩ := ih hnil hl hRl ⟨[' '], b, hspace, hb, rfl⟩
      have hpsne : ps ≠ [] := (ne_nil_iff_of_forall₂ hps).2 hnil
      have hfirst : sep ∉ a ++ f x ++ [' '] := by
        simp only [List.mem_append, not_or]
        exact ⟨⟨hblanks a ha, hxsep⟩, hblanks [' '] hspace⟩
      have hjoin := hcut.cons hpsne hfirst
      refine ⟨(a ++ f x ++ [' ']) :: ps, ?_, .cons (hRx _ ⟨a, [' '], ha, hspace, rfl⟩) hps⟩
      rw [List.intercalate_cons_of_ne_nil (by simpa using hnil)]
      simpa using hjoin

end Progression.Text
