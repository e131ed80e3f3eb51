import Progression.Proofs.Failing
import Progression.Proofs.Table.Columns
import Progression.World.Loader

/-!
# The locations as they are read

The locations of a world are read into three structures that have to be kept in step: the keys in order, the index of
their positions, and the locations. A key is looked for in the index, and if it is new it is registered and its location
is put at the end. So the keys and the index stay aligned with the locations from the first location to the last
(`alike_add`, `alike_readRooms`). What is read is what a table would hold, with the same failures, so a world can be
told from the table (`ofDocument_eq_ok`).
-/

namespace Progression

section Defs

/-- Takes a location into a table, where its key must be new. -/
def addPlace (places : Table LocationKey Place) (e : LocationKey × Place) : Except Failure (Table LocationKey Place) :=
  if e.1 ∈ places then fail (.duplicateLocation e.1) else .ok (places.set e.1 e.2)

/-- The locations of the rooms of a document, read into a table. -/
def tabulateRooms (flags : FlagNames) (d : Document) : Except Failure (Table LocationKey Place) := do
  (← Part.rooms.members d).foldlM (fun places m => do (← roomLocations flags m).foldlM addPlace places) ∅

/-- The keys in order, the index of their positions and the locations are in step. -/
structure Atlas.InStep (a : Atlas) : Prop where
  nodup : a.names.keys.Nodup
  /-- Every location stands at the position of its own key. -/
  keys : ∀ i : Nat, a.names.keys[i]? = (a.values[i]?).map Prod.fst
  /-- The index knows the positions of the keys and nothing else. -/
  positions : ∀ (k : LocationKey) (i : Nat), a.names.positions[k]? = some i ↔ a.names.keys[i]? = some k
  /-- Looking up a key never goes outside of the locations and finds the location of the key, if there is one. -/
  lookup : ∀ k, ∃ found, a.get? k = some found ∧ ∀ e, found = some e ↔ e ∈ a.values ∧ e.1 = k

/-- The columns are aligned, with the locations at the positions of their own keys, and hold what the table does. -/
structure Atlas.Keeps (a : Atlas) (places : Table LocationKey Place) : Prop where
  aligned : Columns.Aligned a
  keys : a.values.map Prod.fst = a.names.keys
  entries : a.values = places.entries

end Defs

variable {flags : FlagNames} {d : Document} {w : World} {a : Atlas} {places : Table LocationKey Place}

/-! ## Taking in locations -/

theorem keeps_empty : Atlas.Keeps ∅ ∅ :=
  ⟨aligned_empty, rfl, rfl⟩

/-- Taking in a location keeps the structures in step, and fails where its key is there already. -/
theorem alike_add (h : a.Keeps places) (e : LocationKey × Place) :
    Alike Atlas.Keeps (a.add e) (addPlace places e) := by
  have hmem : e.1 ∈ a.names.keys ↔ e.1 ∈ places := by
    rw [← h.keys, h.entries]
    exact Table.mem_keys
  unfold Atlas.add addPlace
  by_cases hold : e.1 ∈ places
  · rw [if_pos (h.aligned.indexed.contains_eq_true.2 (hmem.2 hold)), if_pos hold]
    exact .error _
  · have hnew : e.1 ∉ a.names.keys := fun hkey => hold (hmem.1 hkey)
    rw [if_neg fun hcontains => hnew (h.aligned.indexed.contains_eq_true.1 hcontains), if_neg hold]
    refine .ok ⟨aligned_append h.aligned hnew e, ?_, ?_⟩
    · rw [keys_append h.aligned hnew, ← h.keys]
      exact List.map_append
    · rw [Table.entries_set_of_notMem hold, ← h.entries]
      rfl

theorem alike_addRoom (h : a.Keeps places) (m : String × Document) :
    Alike Atlas.Keeps (addRoom flags a m) (do (← roomLocations flags m).foldlM addPlace places) :=
  (Alike.refl _).bind fun locations _ hsame => hsame ▸ .foldlM (fun _ _ e h => alike_add h e) locations h

/-- Reading all rooms keeps the structures in step, from the first location to the last. -/
theorem alike_readRooms (flags : FlagNames) (d : Document) :
    Alike Atlas.Keeps (readRooms flags d) (tabulateRooms flags d) :=
  (Alike.refl _).bind fun rooms _ hsame => hsame ▸ .foldlM (fun _ _ m h => alike_addRoom h m) rooms keeps_empty

/-! ## What can be told from them -/

namespace Atlas.Keeps

theorem keys_eq (h : a.Keeps places) : a.names.keys = places.keys := by
  rw [← h.keys, h.entries, Table.keys]

/-- Looking up a key, which never goes outside of the locations, finds the location of the key. -/
theorem get?_eq (h : a.Keeps places) (k : LocationKey) : a.get? k = some ((places.get? k).map fun p => (k, p)) := by
  by_cases hk : k ∈ a.names.keys
  · obtain ⟨i, hi⟩ := List.getElem?_of_mem hk
    obtain ⟨⟨k, p⟩, hp, rfl⟩ : ∃ e, a.values[i]? = some e ∧ e.1 = k := by
      rw [← h.keys, List.getElem?_map] at hi
      exact Option.map_eq_some_iff.1 hi
    have hentry : (k, p) ∈ places.entries := h.entries ▸ List.mem_of_getElem? hp
    rw [get?_eq_some_some h.aligned hi hp, Table.get?_eq_some_iff.2 hentry]
    rfl
  · have hnew : k ∉ places := by rwa [← Table.mem_keys, ← h.keys_eq]
    rw [get?_eq_some_none h.aligned hk, Table.get?_eq_none_iff.2 hnew]
    rfl

theorem places_eq (h : a.Keeps places) : a.places = places := by
  rw [Atlas.places, h.entries, Table.ofList_entries]

theorem inStep (h : a.Keeps places) : a.InStep where
  nodup := h.aligned.nodup
  keys i := by rw [← h.keys, List.getElem?_map]
  positions := h.aligned.indexed
  lookup k := by
    refine ⟨_, h.get?_eq k, ?_⟩
    rintro ⟨j, p⟩
    rw [h.entries, ← Table.get?_eq_some_iff]
    constructor
    · intro hfound
      obtain ⟨p, hp, hsame⟩ := Option.map_eq_some_iff.1 hfound
      cases hsame
      exact ⟨hp, rfl⟩
    · rintro ⟨hp, rfl⟩
      rw [hp, Option.map_some]

end Atlas.Keeps

/-! ## Worlds that are read -/

/-- What a world has from the parts of its document, with the locations read into a table. -/
structure World.ReadFrom (w : World) (flags : FlagNames) (d : Document) : Prop where
  flagNames : w.flags = flags
  definitions : Definitions.ofDocument flags .definitions (d.part .definitions) = .ok w.definitions
  glitchDefinitions :
    Definitions.ofDocument flags .glitchDefinitions (d.part .glitchDefinitions) = .ok w.glitchDefinitions
  preferences : readPreferences w.definitions w.glitchDefinitions (d.part .preferences) = .ok w.preferences
  places : tabulateRooms flags (d.part .rooms) = .ok w.places

theorem ofDocument_eq_ok : World.ofDocument flags d = .ok w ↔ w.ReadFrom flags d := by
  unfold World.ofDocument
  simp only [bind_eq_ok, within_eq_ok]
  constructor
  · rintro ⟨defs, hdefs, glitchDefs, hglitchDefs, preferences, hpreferences, a, ha, h⟩
    obtain ⟨places, hplaces, hkeeps⟩ := (alike_readRooms flags (d.part .rooms)).exists_of_ok ha
    rw [hkeeps.places_eq] at h
    cases h
    exact ⟨rfl, hdefs, hglitchDefs, hpreferences, hplaces⟩
  · rintro ⟨rfl, hdefs, hglitchDefs, hpreferences, hplaces⟩
    obtain ⟨a, ha, hkeeps⟩ := (alike_readRooms w.flags (d.part .rooms)).exists_of_ok_right hplaces
    refine ⟨_, hdefs, _, hglitchDefs, _, hpreferences, a, ha, ?_⟩
    rw [hkeeps.places_eq]
    rfl

/-- The locations of a world that is read are those that were read into the three structures. -/
theorem exists_keeps_of_ofDocument (h : World.ofDocument flags d = .ok w) :
    ∃ a : Atlas, readRooms flags (d.part .rooms) = .ok a ∧ a.Keeps w.places :=
  (alike_readRooms flags (d.part .rooms)).exists_of_ok_right (ofDocument_eq_ok.1 h).places

end Progression
