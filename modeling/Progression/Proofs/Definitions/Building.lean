import Progression.Proofs.FirstOccurrence
import Progression.Proofs.Table.Columns

/-!
# How tables come about

Tables come about from the empty one by bindings and by merging tables that came about so. In each of them a key has
the value of its last binding, and the keys stand in the order of their first bindings. The columns that such a table is
kept in stay aligned: every key has its own position and there is a value at it, so nothing is looked up or replaced
outside of the columns (`exists_columns?`).
-/

namespace Progression

/-! ## Ways to build a table -/

section Defs

/-- A way to build a table: bindings one after another, also all those of a table that was built before. -/
inductive Build (κ β : Type)
  | empty
  | set (b : Build κ β) (k : κ) (v : β)
  | merge (b other : Build κ β)

variable {κ β : Type} [DecidableEq κ]

namespace Build

/-- The table that is built. -/
def table : Build κ β → Table κ β
  | empty => ∅
  | set b k v => b.table.set k v
  | merge b other => b.table.merge other.table

/-- All bindings, one after another; with a table the bindings that built it are taken over. -/
def history : Build κ β → List (κ × β)
  | empty => []
  | set b k v => b.history ++ [(k, v)]
  | merge b other => b.history ++ other.history

/-- The table that is built, in columns, if it is never reached outside of them. -/
def columns? [Hashable κ] : Build κ β → Option (Columns κ β)
  | empty => some ∅
  | set b k v => b.columns?.bind fun t => t.set? k v
  | merge b other => b.columns?.bind fun t => other.columns?.bind fun u => t.merge? u

end Build

/-- The table is what some bindings leave, one after another: a key has the value of its last binding, if there is one,
and each key is there once, in the order of the first bindings. -/
structure Table.Records (t : Table κ β) (history : List (κ × β)) : Prop where
  last : ∀ k, t.get? k = history.reverse.lookup k
  unbound : ∀ k, t.get? k = none ↔ k ∉ history.map Prod.fst
  entries : ∀ k v, (k, v) ∈ t.entries ↔ history.reverse.lookup k = some v
  nodup : t.keys.Nodup
  order : t.keys.Pairwise fun j k => (history.map Prod.fst).idxOf j < (history.map Prod.fst).idxOf k

end Defs

/-! ## Columns -/

section Columns

variable {κ β : Type} [DecidableEq κ] [Hashable κ]

/-- However a table is built, its columns are never reached outside of their bounds; they stay aligned and have the
entries of the table. -/
theorem exists_columns? (b : Build κ β) : ∃ c, b.columns? = some c ∧ c.Aligned ∧ c.entries = b.table.entries := by
  induction b with
  | empty => exact ⟨∅, rfl, aligned_empty, rfl⟩
  | set b k v ih =>
    obtain ⟨c, hc, haligned, hentries⟩ := ih
    obtain ⟨c', hset, haligned', hentries'⟩ := exists_set? haligned k v
    refine ⟨c', ?_, haligned', ?_⟩
    · rw [Build.columns?, hc, Option.bind_some, hset]
    · rw [hentries', hentries]
      rfl
  | merge b other ih ihOther =>
    obtain ⟨c, hc, haligned, hentries⟩ := ih
    obtain ⟨d, hd, -, hother⟩ := ihOther
    obtain ⟨c', hmerge, haligned', hentries'⟩ := exists_foldlM_set? haligned d.entries
    refine ⟨c', ?_, haligned', ?_⟩
    · rw [Build.columns?, hc, Option.bind_some, hd, Option.bind_some]
      exact hmerge
    · rw [hentries', hentries, hother, ← entries_foldl_set]
      rfl

end Columns

/-! ## What remains of the bindings -/

section History

variable {κ β : Type} [DecidableEq κ]

theorem nodup_eraseDups (l : List κ) : l.eraseDups.Nodup :=
  nodup_of_pairwise_idxOf (pairwise_eraseDups l)

theorem eraseDups_append_eraseDups (l l' : List κ) :
    (l.eraseDups ++ l'.eraseDups).eraseDups = (l ++ l').eraseDups := by
  induction l' using List.reverseRecOn with
  | nil => simpa using eraseDups_eq_self (nodup_eraseDups l)
  | append_singleton l' a ih =>
    rw [← List.append_assoc, eraseDups_concat (l ++ l'), eraseDups_concat l']
    by_cases ha : a ∈ l'
    · rw [if_pos ha, if_pos (List.mem_append_right l ha), ih]
    · rw [if_neg ha, ← List.append_assoc, eraseDups_concat, ih]
      simp only [List.mem_append, List.mem_eraseDups]

theorem keys_foldl_set (t : Table κ β) (es : List (κ × β)) :
    (es.foldl (fun t e => t.set e.1 e.2) t).keys = (t.keys ++ es.map Prod.fst).eraseDups := by
  induction es using List.reverseRecOn with
  | nil =>
    have hkeys : t.keys.eraseDups = t.keys := eraseDups_eq_self t.nodup
    rw [List.foldl_nil, List.map_nil, List.append_nil, hkeys]
  | append_singleton es e ih =>
    have hmem : e.1 ∈ es.foldl (fun t e => t.set e.1 e.2) t ↔ e.1 ∈ t.keys ++ es.map Prod.fst := by
      rw [← Table.mem_keys, ih, List.mem_eraseDups]
    rw [List.foldl_append, List.foldl_cons, List.foldl_nil, Table.keys_set, List.map_append, List.map_singleton,
      ← List.append_assoc, eraseDups_concat, ih]
    simp only [hmem]

/-- A merged table has the keys of the one before it and then the new ones of the other. -/
theorem keys_merge (t u : Table κ β) : (t.merge u).keys = (t.keys ++ u.keys).eraseDups :=
  keys_foldl_set t u.entries

/-- The keys of a table that is built, in the order in which they are first bound. -/
theorem keys_table (b : Build κ β) : b.table.keys = (b.history.map Prod.fst).eraseDups := by
  induction b with
  | empty => rfl
  | set b k v ih =>
    have hmem : k ∈ b.table ↔ k ∈ b.history.map Prod.fst := by rw [← Table.mem_keys, ih, List.mem_eraseDups]
    rw [Build.table, Table.keys_set, Build.history, List.map_append, List.map_singleton, eraseDups_concat, ih]
    simp only [hmem]
  | merge b other ih ihOther =>
    rw [Build.table, keys_merge, ih, ihOther, eraseDups_append_eraseDups, Build.history, List.map_append]

/-- A key has the value that it was last bound to. -/
theorem get?_table (b : Build κ β) (k : κ) : b.table.get? k = b.history.reverse.lookup k := by
  induction b with
  | empty => rfl
  | set b j v ih =>
    rw [Build.table, Table.get?_set, ih, Build.history, List.reverse_append, List.reverse_singleton,
      List.singleton_append, lookup_entry_cons]
  | merge b other ih ihOther =>
    rw [Build.table, Table.get?_merge, ih, ihOther, Build.history, List.reverse_append, List.lookup_append]

theorem records_history (b : Build κ β) : b.table.Records b.history := by
  have hmem : ∀ k, k ∈ b.table ↔ k ∈ b.history.map Prod.fst := by
    intro k
    rw [← Table.mem_keys, keys_table, List.mem_eraseDups]
  refine ⟨get?_table b, ?_, ?_, b.table.nodup, ?_⟩
  · intro k
    rw [Table.get?_eq_none_iff, hmem]
  · intro k v
    rw [← Table.get?_eq_some_iff, get?_table]
  · rw [keys_table]
    exact pairwise_eraseDups _

end History

/-- However a table is built, it can be kept in aligned columns that are never reached outside of their bounds and
answer as the table does. The table records what was bound: the last binding of a key counts, and keys stand in the
order of their first bindings. Merging takes what the other table has, and else what was there. -/
theorem table_of_build {κ β : Type} [DecidableEq κ] [Hashable κ] (b : Build κ β) :
    (∃ c, b.columns? = some c ∧ c.Aligned ∧ c.entries = b.table.entries ∧
        ∀ k, c.get? k = some (b.table.get? k)) ∧
      b.table.Records b.history ∧
      ∀ (other : Build κ β) (k : κ), (b.merge other).table.get? k = (other.table.get? k).or (b.table.get? k) := by
  obtain ⟨c, hc, haligned, hentries⟩ := exists_columns? b
  refine ⟨⟨c, hc, haligned, hentries, get?_columns haligned hentries⟩, records_history b, ?_⟩
  intro other k
  exact Table.get?_merge b.table other.table k

/-- A key that is bound again, by itself or with another table, keeps its place. -/
example :
    (((Build.empty.set "a" 1).set "b" 2).set "a" 3 |>.merge ((Build.empty.set "c" 4).set "b" 5)).table.entries =
      [("a", 3), ("b", 5), ("c", 4)] := by decide

end Progression
