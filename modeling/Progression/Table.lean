/-!
# Tables

A table binds distinct keys to values and keeps the keys in the order of their first binding. Binding a key anew
replaces its value in place (`Table.get?_set`, `Table.keys_set`).
-/

namespace Progression

/-- The entries with `v` for `k`: in place of the old value, or at the end. -/
def setEntry {κ β : Type} [DecidableEq κ] (k : κ) (v : β) : List (κ × β) → List (κ × β)
  | [] => [(k, v)]
  | e :: es => if e.1 = k then (k, v) :: es else e :: setEntry k v es

section

variable {κ β : Type} [DecidableEq κ]

theorem keys_setEntry (k : κ) (v : β) (es : List (κ × β)) :
    (setEntry k v es).map Prod.fst =
      if k ∈ es.map Prod.fst then es.map Prod.fst else es.map Prod.fst ++ [k] := by
  induction es with
  | nil => simp [setEntry]
  | cons e es ih =>
    by_cases h : e.1 = k
    · simp [setEntry, h]
    · by_cases hk : k ∈ es.map Prod.fst
      · rw [if_pos hk] at ih
        simp [setEntry, h, ih, hk]
      · rw [if_neg hk] at ih
        simp [setEntry, h, ih, hk, Ne.symm h]

/-- A new key is bound at the end. -/
theorem setEntry_of_notMem {k : κ} {v : β} {es : List (κ × β)} (h : k ∉ es.map Prod.fst) :
    setEntry k v es = es ++ [(k, v)] := by
  induction es with
  | nil => rfl
  | cons e es ih =>
    rw [List.map_cons, List.mem_cons, not_or] at h
    rw [setEntry, if_neg (Ne.symm h.1), ih h.2, List.cons_append]

theorem nodup_keys_setEntry (k : κ) (v : β) {es : List (κ × β)} (h : (es.map Prod.fst).Nodup) :
    ((setEntry k v es).map Prod.fst).Nodup := by
  rw [keys_setEntry]
  split
  · exact h
  · next hk =>
    refine List.nodup_append.2 ⟨h, by simp, fun a ha b hb => ?_⟩
    rw [List.mem_singleton.1 hb]
    exact ne_of_mem_of_not_mem ha hk

theorem lookup_entry_cons (j : κ) (e : κ × β) (es : List (κ × β)) :
    (e :: es).lookup j = if j = e.1 then some e.2 else es.lookup j := by
  obtain ⟨k, v⟩ := e
  by_cases h : j = k
  · simp [h, List.lookup_cons_self]
  · have hjk : (j == k) = false := by simpa using h
    simp [List.lookup_cons, hjk, h]

theorem lookup_setEntry (k j : κ) (v : β) (es : List (κ × β)) :
    (setEntry k v es).lookup j = if j = k then some v else es.lookup j := by
  induction es with
  | nil => exact lookup_entry_cons j (k, v) []
  | cons e es ih =>
    by_cases h : e.1 = k
    · by_cases hj : j = k <;> simp [setEntry, lookup_entry_cons, h, hj]
    · by_cases hj : j = e.1
      · subst hj
        simp [setEntry, lookup_entry_cons, h]
      · simp [setEntry, lookup_entry_cons, h, hj, ih]

theorem setEntry_setEntry (k : κ) (u v : β) (es : List (κ × β)) :
    setEntry k v (setEntry k u es) = setEntry k v es := by
  induction es with
  | nil => exact if_pos rfl
  | cons e es ih =>
    by_cases h : e.1 = k
    · simp [setEntry, h]
    · simp [setEntry, h, ih]

theorem setEntry_setEntry_of_ne {k j : κ} (hjk : j ≠ k) (u v w : β) (es : List (κ × β)) :
    setEntry k v (setEntry j w (setEntry k u es)) = setEntry j w (setEntry k v es) := by
  induction es with
  | nil => simp [setEntry, hjk.symm]
  | cons e es ih =>
    by_cases hek : e.1 = k
    · simp [setEntry, hek, hjk.symm]
    · by_cases hej : e.1 = j
      · simp [setEntry, hej, hjk, setEntry_setEntry]
      · simp [setEntry, hek, hej, ih]

end

/-- Distinct keys with a value each, in the order of their first binding. -/
structure Table (κ β : Type) where
  entries : List (κ × β)
  nodup : (entries.map Prod.fst).Nodup

namespace Table

variable {κ β : Type}

def empty : Table κ β := ⟨[], List.nodup_nil⟩

instance : EmptyCollection (Table κ β) := ⟨empty⟩

instance : Inhabited (Table κ β) := ⟨empty⟩

def keys (t : Table κ β) : List κ := t.entries.map Prod.fst

def values (t : Table κ β) : List β := t.entries.map Prod.snd

def size (t : Table κ β) : Nat := t.entries.length

def isEmpty (t : Table κ β) : Bool := t.entries.isEmpty

instance : Membership κ (Table κ β) := ⟨fun t k => k ∈ t.keys⟩

@[simp] theorem mem_keys {k : κ} {t : Table κ β} : k ∈ t.keys ↔ k ∈ t := Iff.rfl

variable [DecidableEq κ]

instance (k : κ) (t : Table κ β) : Decidable (k ∈ t) := inferInstanceAs (Decidable (k ∈ t.keys))

/-- The value of `k`. -/
def get? (t : Table κ β) (k : κ) : Option β := t.entries.lookup k

/-- Binds `k` to `v`, in place of an earlier binding. -/
def set (t : Table κ β) (k : κ) (v : β) : Table κ β :=
  ⟨setEntry k v t.entries, nodup_keys_setEntry k v t.nodup⟩

/-- Takes over every binding of `u`, in its order. -/
def merge (t u : Table κ β) : Table κ β :=
  u.entries.foldl (fun t e => t.set e.1 e.2) t

def ofList (es : List (κ × β)) : Table κ β :=
  es.foldl (fun t e => t.set e.1 e.2) ∅

@[simp] theorem get?_empty (k : κ) : (∅ : Table κ β).get? k = none := rfl

theorem get?_set (t : Table κ β) (k j : κ) (v : β) :
    (t.set k v).get? j = if j = k then some v else t.get? j :=
  lookup_setEntry k j v t.entries

theorem keys_set (t : Table κ β) (k : κ) (v : β) :
    (t.set k v).keys = if k ∈ t then t.keys else t.keys ++ [k] :=
  keys_setEntry k v t.entries

/-- Of two values for one key the last one counts. -/
theorem set_set (t : Table κ β) (k : κ) (u v : β) : (t.set k u).set k v = t.set k v := by
  unfold set
  congr 1
  exact setEntry_setEntry k u v t.entries

/-- So it does where another key is bound in between. -/
theorem set_set_of_ne (t : Table κ β) {k j : κ} (hjk : j ≠ k) (u v w : β) :
    ((t.set k u).set j w).set k v = (t.set k v).set j w := by
  unfold set
  congr 1
  exact setEntry_setEntry_of_ne hjk u v w t.entries

theorem entries_set_of_notMem {t : Table κ β} {k : κ} (h : k ∉ t) (v : β) :
    (t.set k v).entries = t.entries ++ [(k, v)] :=
  setEntry_of_notMem h

theorem get?_eq_some_iff {t : Table κ β} {k : κ} {v : β} :
    t.get? k = some v ↔ (k, v) ∈ t.entries := by
  obtain ⟨es, h⟩ := t
  show es.lookup k = some v ↔ (k, v) ∈ es
  induction es with
  | nil => simp [List.lookup_nil]
  | cons e es ih =>
    obtain ⟨he, hes⟩ := List.nodup_cons.1 h
    by_cases hk : k = e.1
    · subst hk
      have : (e.1, v) ∉ es := fun hm => he (List.mem_map.2 ⟨_, hm, rfl⟩)
      simp [lookup_entry_cons, this, Prod.ext_iff, eq_comm]
    · simp [lookup_entry_cons, ih hes, Prod.ext_iff, hk]

theorem mem_iff_get? {t : Table κ β} {k : κ} : k ∈ t ↔ ∃ v, t.get? k = some v := by
  simp [get?_eq_some_iff, ← mem_keys, keys]

theorem mem_values {t : Table κ β} {v : β} : v ∈ t.values ↔ ∃ k, t.get? k = some v := by
  simp [get?_eq_some_iff, values]

theorem get?_eq_none_iff {t : Table κ β} {k : κ} : t.get? k = none ↔ k ∉ t := by
  rw [mem_iff_get?]
  cases t.get? k <;> simp

@[simp] theorem mem_set {t : Table κ β} {k j : κ} {v : β} : j ∈ t.set k v ↔ j = k ∨ j ∈ t := by
  rw [mem_iff_get?, mem_iff_get?, get?_set]
  by_cases h : j = k <;> simp [h]

/-- Where the keys are distinct, bindings that are made in a row come before those of the table. -/
theorem get?_foldl_set (t : Table κ β) {es : List (κ × β)} (h : (es.map Prod.fst).Nodup) (k : κ) :
    (es.foldl (fun t e => t.set e.1 e.2) t).get? k = (es.lookup k).or (t.get? k) := by
  induction es generalizing t with
  | nil => rfl
  | cons e es ih =>
    obtain ⟨he, hes⟩ := List.nodup_cons.1 h
    rw [List.foldl_cons, ih _ hes, get?_set, lookup_entry_cons]
    by_cases hk : k = e.1
    · have hnone : es.lookup k = none := by
        refine List.lookup_eq_none_iff.2 fun p hp => ?_
        have hne : k ≠ p.1 := fun hkp => he (List.mem_map.2 ⟨p, hp, hkp.symm.trans hk⟩)
        simpa using hne
      rw [hnone, if_pos hk, if_pos hk, Option.none_or, Option.some_or]
    · rw [if_neg hk, if_neg hk]

/-- Keys that are new and distinct are bound at the end, one after another. -/
theorem entries_foldl_set_of_nodup (t : Table κ β) {es : List (κ × β)} (h : (t.keys ++ es.map Prod.fst).Nodup) :
    (es.foldl (fun t e => t.set e.1 e.2) t).entries = t.entries ++ es := by
  induction es generalizing t with
  | nil => exact (List.append_nil _).symm
  | cons e es ih =>
    have hnew : e.1 ∉ t := fun he => (List.nodup_append.1 h).2.2 e.1 he e.1 List.mem_cons_self rfl
    have hkeys : (t.set e.1 e.2).keys = t.keys ++ [e.1] := by rw [keys_set, if_neg hnew]
    have hrest : ((t.set e.1 e.2).keys ++ es.map Prod.fst).Nodup := by
      rw [hkeys, List.append_assoc]
      exact h
    rw [List.foldl_cons, ih _ hrest, entries_set_of_notMem hnew, List.append_assoc]
    rfl

theorem ofList_entries (t : Table κ β) : ofList t.entries = t := by
  have hentries : (ofList t.entries).entries = t.entries := entries_foldl_set_of_nodup ∅ t.nodup
  obtain ⟨es, h⟩ := t
  cases hof : ofList es with
  | mk es' h' =>
    rw [hof] at hentries
    cases hentries
    rfl

/-- A merged table has the bindings of the one that is taken over, and else its own. -/
theorem get?_merge (t u : Table κ β) (k : κ) : (t.merge u).get? k = (u.get? k).or (t.get? k) :=
  get?_foldl_set t u.nodup k

end Table

end Progression
