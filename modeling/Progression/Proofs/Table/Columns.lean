import Mathlib.Data.List.Nodup
import Progression.Table.Columns

/-!
# Aligned columns

Columns are aligned if every key has its own position, the index knows it, and there is a value at it. Then nothing is
looked up or replaced outside of the columns: binding is what it is in a table (`exists_set?`), and so is looking up
(`get?_columns`). A new key with its value can also be put at the end without asking for its position
(`aligned_append`); the columns stay aligned only because the key is new.
-/

namespace Progression

section Defs

variable {κ β : Type} [DecidableEq κ]

/-- The index has the keys and no others, and gives each its own position. -/
def Register.Indexed [Hashable κ] (r : Register κ) : Prop :=
  ∀ (k : κ) (i : Nat), r.positions[k]? = some i ↔ r.keys[i]? = some k

/-- The columns belong together: no key is there twice, the index gives the positions of the keys, and there are as many
values as keys. -/
structure Columns.Aligned [Hashable κ] (t : Columns κ β) : Prop where
  nodup : t.names.keys.Nodup
  indexed : t.names.Indexed
  length : t.values.length = t.names.keys.length

end Defs

/-! ## Entries -/

section Entries

theorem getElem?_concat_eq_some {α : Type} {l : List α} {a b : α} {i : Nat} :
    (l ++ [a])[i]? = some b ↔ l[i]? = some b ∨ i = l.length ∧ a = b := by
  rcases Nat.lt_trichotomy i l.length with hlt | heq | hgt
  · rw [List.getElem?_append_left hlt, or_iff_left fun h => Nat.ne_of_lt hlt h.1]
  · subst heq
    simp
  · have hout : (l ++ [a])[i]? = none := by
      apply List.getElem?_eq_none
      rw [List.length_append, List.length_singleton]
      omega
    have hold : l[i]? = none := List.getElem?_eq_none (Nat.le_of_lt hgt)
    rw [hout, hold, or_iff_right nofun]
    exact iff_of_false nofun fun h => absurd h.1 (Nat.ne_of_gt hgt)

variable {κ β : Type} [DecidableEq κ] {k : κ} {i : Nat}

/-- Replacing the value at the position of a key is binding the key anew. -/
theorem zip_set {ks : List κ} {vs : List β} (hnodup : ks.Nodup) (hlength : vs.length = ks.length)
    (hi : ks[i]? = some k) (v : β) : ks.zip (vs.set i v) = setEntry k v (ks.zip vs) := by
  induction ks generalizing vs i with
  | nil => simp at hi
  | cons k' ks ih =>
    obtain ⟨hk', hks⟩ := List.nodup_cons.1 hnodup
    cases vs with
    | nil => simp at hlength
    | cons v' vs =>
      cases i with
      | zero =>
        have hsame : k' = k := by simpa using hi
        simp [setEntry, hsame]
      | succ i =>
        have hmem : k ∈ ks := List.mem_of_getElem? (by simpa using hi)
        have hne : k' ≠ k := fun h => hk' (h ▸ hmem)
        have hrest : ks.zip (vs.set i v) = setEntry k v (ks.zip vs) :=
          ih hks (by simpa using hlength) (by simpa using hi)
        simp [setEntry, hne, hrest]

theorem entries_foldl_set (t : Table κ β) (es : List (κ × β)) :
    (es.foldl (fun t e => t.set e.1 e.2) t).entries = es.foldl (fun l e => setEntry e.1 e.2 l) t.entries := by
  induction es generalizing t with
  | nil => rfl
  | cons e es ih => exact ih (t.set e.1 e.2)

end Entries

/-! ## Columns -/

section Columns

variable {κ β : Type} [DecidableEq κ] [Hashable κ] {r : Register κ} {t : Columns κ β} {k : κ} {i : Nat}

theorem getElem?_insert_positions (r : Register κ) (k j : κ) (i : Nat) :
    (r.positions.insert k i)[j]? = if k = j then some i else r.positions[j]? := by
  simp only [Std.HashMap.getElem?_insert, beq_iff_eq]

/-- Where every key has its own position no key is there twice. -/
theorem Register.Indexed.nodup (h : r.Indexed) : r.keys.Nodup := by
  rw [List.nodup_iff_getElem?_ne_getElem?]
  intro i j hij hj heq
  obtain ⟨k, hk⟩ : ∃ k, r.keys[j]? = some k := ⟨r.keys[j], List.getElem?_eq_getElem hj⟩
  have hi : r.positions[k]? = some i := (h k i).2 (heq.trans hk)
  have hj' : r.positions[k]? = some j := (h k j).2 hk
  have hsame : i = j := Option.some.inj (hi.symm.trans hj')
  omega

theorem Register.Indexed.getElem?_eq_none (h : r.Indexed) : r.positions[k]? = none ↔ k ∉ r.keys := by
  rw [Option.eq_none_iff_forall_ne_some, List.mem_iff_getElem?, not_exists]
  exact forall_congr' fun i => not_congr (h k i)

theorem Register.Indexed.contains_eq_true (h : r.Indexed) : r.contains k = true ↔ k ∈ r.keys := by
  rw [← not_iff_not, ← h.getElem?_eq_none, Register.contains, Std.HashMap.contains_eq_isSome_getElem?,
    Option.not_isSome_iff_eq_none]

/-- A new key gets the position behind all others. -/
theorem Register.Indexed.concat (h : r.Indexed) (hk : k ∉ r.keys) :
    Register.Indexed ⟨r.keys ++ [k], r.positions.insert k r.keys.length⟩ := by
  intro j i
  show (r.positions.insert k r.keys.length)[j]? = some i ↔ (r.keys ++ [k])[i]? = some j
  rw [getElem?_insert_positions, getElem?_concat_eq_some]
  by_cases hjk : k = j
  · subst hjk
    have hold : r.keys[i]? ≠ some k := fun hi => hk (List.mem_of_getElem? hi)
    rw [if_pos rfl, or_iff_right hold, Option.some.injEq, eq_comm]
    exact (and_iff_left rfl).symm
  · rw [if_neg hjk, h j i, or_iff_left fun hi => hjk hi.2]

theorem add_of_notMem (h : r.Indexed) (hk : k ∉ r.keys) :
    r.add k = (r.keys.length, ⟨r.keys ++ [k], r.positions.insert k r.keys.length⟩) := by
  rw [Register.add, h.getElem?_eq_none.2 hk]

/-- There is a value at every position that the index knows. -/
theorem Columns.Aligned.lt_length (h : t.Aligned) (hk : t.names.positions[k]? = some i) : i < t.values.length := by
  have hi : t.names.keys[i]? = some k := (h.indexed k i).1 hk
  rw [h.length]
  exact (List.getElem?_eq_some_iff.1 hi).1

theorem keys_entries (h : t.Aligned) : t.entries.map Prod.fst = t.names.keys :=
  List.map_fst_zip (Nat.le_of_eq h.length.symm)

/-- A new key comes behind the others. -/
theorem keys_append (h : t.Aligned) (hk : k ∉ t.names.keys) (v : β) :
    (t.append k v).names.keys = t.names.keys ++ [k] := by
  rw [Columns.append, add_of_notMem h.indexed hk]

theorem entries_append (h : t.Aligned) (hk : k ∉ t.names.keys) (v : β) :
    (t.append k v).entries = t.entries ++ [(k, v)] := by
  rw [Columns.entries, keys_append h hk]
  exact List.zip_append h.length.symm

/-- A value that is put at the end stands at the position of its key because the key is new. -/
theorem aligned_append (h : t.Aligned) (hk : k ∉ t.names.keys) (v : β) : (t.append k v).Aligned := by
  have hindexed : (t.append k v).names.Indexed := by
    rw [Columns.append, add_of_notMem h.indexed hk]
    exact h.indexed.concat hk
  refine ⟨hindexed.nodup, hindexed, ?_⟩
  rw [keys_append h hk, List.length_append, ← h.length, Columns.append, List.length_append]
  rfl

/-- Binding keeps the columns aligned and does to the entries what it does in a table. -/
theorem exists_set? (h : t.Aligned) (k : κ) (v : β) :
    ∃ t', t.set? k v = some t' ∧ t'.Aligned ∧ t'.entries = setEntry k v t.entries := by
  cases hk : t.names.positions[k]? with
  | some i =>
    -- the key has a position, and a value there to be replaced
    have hi : t.names.keys[i]? = some k := (h.indexed k i).1 hk
    have hlt : i < t.values.length := h.lt_length hk
    have hne : i ≠ t.values.length := Nat.ne_of_lt hlt
    have hset : t.set? k v = some ⟨t.names, t.values.set i v⟩ := by
      simp [Columns.set?, Register.add, hk, hne, hlt]
    refine ⟨_, hset, ⟨h.nodup, h.indexed, ?_⟩, zip_set h.nodup h.length hi v⟩
    rw [List.length_set, h.length]
  | none =>
    have hnew : k ∉ t.names.keys := h.indexed.getElem?_eq_none.1 hk
    have hset : t.set? k v = some (t.append k v) := by
      simp [Columns.set?, Columns.append, Register.add, hk, h.length]
    refine ⟨_, hset, aligned_append h hnew v, ?_⟩
    have hkeys : k ∉ t.entries.map Prod.fst := by rwa [keys_entries h]
    rw [setEntry_of_notMem hkeys, entries_append h hnew]

/-- So do bindings one after another. -/
theorem exists_foldlM_set? (h : t.Aligned) (es : List (κ × β)) :
    ∃ t', es.foldlM (fun t e => t.set? e.1 e.2) t = some t' ∧ t'.Aligned ∧
      t'.entries = es.foldl (fun l e => setEntry e.1 e.2 l) t.entries := by
  induction es generalizing t with
  | nil => exact ⟨t, rfl, h, rfl⟩
  | cons e es ih =>
    obtain ⟨t₁, hset, haligned, hentries⟩ := exists_set? h e.1 e.2
    obtain ⟨t₂, hrest, haligned₂, hentries₂⟩ := ih haligned
    refine ⟨t₂, ?_, haligned₂, ?_⟩
    · rw [List.foldlM_cons, hset]
      exact hrest
    · rw [hentries₂, hentries, List.foldl_cons]

theorem aligned_empty : (∅ : Columns κ β).Aligned :=
  ⟨List.nodup_nil, fun k i => by simp [EmptyCollection.emptyCollection], rfl⟩

theorem get?_eq_some_none (h : t.Aligned) (hk : k ∉ t.names.keys) : t.get? k = some none := by
  rw [Columns.get?, h.indexed.getElem?_eq_none.2 hk]

theorem get?_eq_some_some (h : t.Aligned) (hk : t.names.keys[i]? = some k) {v : β} (hv : t.values[i]? = some v) :
    t.get? k = some (some v) := by
  rw [Columns.get?, (h.indexed k i).2 hk]
  simp only [hv, Option.map_some]

/-- Looking up a key in columns finds what the table has for it. -/
theorem get?_columns (h : t.Aligned) {table : Table κ β} (hentries : t.entries = table.entries) (k : κ) :
    t.get? k = some (table.get? k) := by
  have hkeys : table.keys = t.names.keys := by rw [← keys_entries h, hentries, Table.keys]
  by_cases hk : k ∈ t.names.keys
  · obtain ⟨i, hi⟩ := List.getElem?_of_mem hk
    have hlt : i < t.values.length := h.length ▸ (List.getElem?_eq_some_iff.1 hi).1
    have hvalue : t.values[i]? = some t.values[i] := List.getElem?_eq_getElem hlt
    have hentry : (k, t.values[i]) ∈ table.entries := by
      rw [← hentries]
      exact List.mem_of_getElem? (List.getElem?_zip_eq_some.2 ⟨hi, hvalue⟩)
    rw [get?_eq_some_some h hi hvalue, Table.get?_eq_some_iff.2 hentry]
  · have hnew : k ∉ table := by rwa [← Table.mem_keys, hkeys]
    rw [get?_eq_some_none h hk, Table.get?_eq_none_iff.2 hnew]

end Columns

end Progression
