import Progression.Proofs.World.Locations

/-!
# What rooms ask for

Every location carries the requirement of its room. It is the one that its own entry of the document gives to the room,
so locations that are listed together carry the same. But a room can be listed twice, under keys that are spelled
differently, and its two entries are not compared: they may ask for different things. Locations of one room carry one
requirement if and only if the entries that denote the room say the same about it (`oneRequirementPerRoom_iff`), as they
do where no room is listed twice.
-/

namespace Progression

/-- Any two locations of one room carry the same requirement of the room. -/
def World.OneRequirementPerRoom (w : World) : Prop :=
  ∀ k p k' p', w.places.get? k = some p → w.places.get? k' = some p' → k.room = k'.room → p.room = p'.room

/-- What the room of an entry asks for: nothing if there is no entry for the room itself. -/
def LocationEntry.roomRequirement (flags : FlagNames) (e : LocationEntry) : Except Failure Requirement :=
  e.roomValue?.elim (.ok .free) (Requirement.ofDocument flags)

/-- Entries that denote the same room say the same about what it asks for. -/
def Document.RoomsAgree (flags : FlagNames) (d : Document) : Prop :=
  ∀ e ∈ d.locationEntries, ∀ e' ∈ d.locationEntries, RoomKey.ofText e.room = RoomKey.ofText e'.room →
    e.roomRequirement flags = e'.roomRequirement flags

instance (flags : FlagNames) (d : Document) : Decidable (d.RoomsAgree flags) :=
  inferInstanceAs (Decidable (∀ e ∈ d.locationEntries, ∀ e' ∈ d.locationEntries,
    RoomKey.ofText e.room = RoomKey.ofText e'.room → e.roomRequirement flags = e'.roomRequirement flags))

/-- No two members of the rooms denote the same room. -/
def Document.ListsRoomsOnce (d : Document) : Prop :=
  ∀ m ∈ (d.part .rooms).members?.getD [], ∀ m' ∈ (d.part .rooms).members?.getD [],
    RoomKey.ofText m.1 = RoomKey.ofText m'.1 → m = m'

variable {flags : FlagNames} {d : Document} {w : World} {e : LocationEntry} {k : LocationKey} {p : Place}

theorem LocationEntry.Describes.roomRequirement_eq (h : e.Describes flags k p) :
    e.roomRequirement flags = .ok p.room := by
  have hroom := h.roomRequirement
  unfold LocationEntry.roomRequirement
  cases hvalue : e.roomValue? with
  | none =>
    rw [hvalue] at hroom
    exact congrArg Except.ok hroom.symm
  | some v =>
    rw [hvalue] at hroom
    exact hroom

theorem oneRequirementPerRoom_of_roomsAgree (h : World.ofDocument flags d = .ok w) (hagree : d.RoomsAgree flags) :
    w.OneRequirementPerRoom := by
  intro k p k' p' hp hp' hroom
  obtain ⟨e, he, hdescribes⟩ := (get?_places_eq_some_iff h).1 hp
  obtain ⟨e', he', hdescribes'⟩ := (get?_places_eq_some_iff h).1 hp'
  have hsame : RoomKey.ofText e.room = RoomKey.ofText e'.room := by
    rw [hdescribes.room, hdescribes'.room, hroom]
  have hreq := hagree e he e' he' hsame
  rw [hdescribes.roomRequirement_eq, hdescribes'.roomRequirement_eq] at hreq
  exact Except.ok.inj hreq

theorem roomsAgree_of_oneRequirementPerRoom (h : World.ofDocument flags d = .ok w) (hone : w.OneRequirementPerRoom) :
    d.RoomsAgree flags := by
  intro e he e' he' hsame
  -- each entry has become a location
  obtain ⟨⟨k, p⟩, hplace, hdescribes⟩ := exists_of_mem_left (describes_places h) he
  obtain ⟨⟨k', p'⟩, hplace', hdescribes'⟩ := exists_of_mem_left (describes_places h) he'
  have hroom : k.room = k'.room := by
    rw [hdescribes.room, hdescribes'.room] at hsame
    exact Except.ok.inj hsame
  have hreq := hone k p k' p' (Table.get?_eq_some_iff.2 hplace) (Table.get?_eq_some_iff.2 hplace') hroom
  rw [hdescribes.roomRequirement_eq, hdescribes'.roomRequirement_eq, hreq]

/-- Entries that are listed together say the same about their room. -/
theorem roomsAgree_of_listsRoomsOnce (h : d.ListsRoomsOnce) : d.RoomsAgree flags := by
  intro e he e' he' hsame
  obtain ⟨m, hm, he⟩ := List.mem_flatMap.1 he
  obtain ⟨m', hm', he'⟩ := List.mem_flatMap.1 he'
  obtain ⟨x, -, rfl⟩ := List.mem_map.1 he
  obtain ⟨x', -, rfl⟩ := List.mem_map.1 he'
  obtain rfl := h m hm m' hm' hsame
  rfl

/-- In a world that is read, locations of one room carry one requirement of the room if and only if the entries of the
document that denote one room agree about it; so they do if no room is listed twice. -/
theorem oneRequirementPerRoom_iff (flags : FlagNames) (d : Document) (w : World)
    (h : World.ofDocument flags d = .ok w) :
    (w.OneRequirementPerRoom ↔ d.RoomsAgree flags) ∧ (d.ListsRoomsOnce → w.OneRequirementPerRoom) :=
  ⟨⟨roomsAgree_of_oneRequirementPerRoom h, oneRequirementPerRoom_of_roomsAgree h⟩,
    fun honce => oneRequirementPerRoom_of_roomsAgree h (roomsAgree_of_listsRoomsOnce honce)⟩

/-- A room behind a door, listed once more in small letters with some members. -/
def cellar (again : List (String × Document)) : Document :=
  .object [("Rooms", .object [
    ("0A-01-1F", .object [("room", .text "door open"), ("00", .null)]),
    ("0a-01-1f", .object again)])]

/-- A room that is listed twice has one requirement if both entries give it. -/
theorem oneRequirementPerRoom_iff_cellar :
    ∃ w, World.ofDocument ∅ (cellar [("01", .null), (" room ", .text " door open")]) = .ok w ∧
      w.OneRequirementPerRoom := by
  have hread : (tabulateRooms ∅ ((cellar [("01", .null), (" room ", .text " door open")]).part .rooms)).map
      Table.size = .ok 2 := by decide +kernel
  obtain ⟨places, hplaces, -⟩ := map_eq_ok.1 hread
  have hw : World.ofDocument ∅ (cellar [("01", .null), (" room ", .text " door open")]) = .ok ⟨∅, ∅, ∅, ∅, places⟩ :=
    ofDocument_eq_ok.2 ⟨rfl, rfl, rfl, rfl, hplaces⟩
  have hagree : (cellar [("01", .null), (" room ", .text " door open")]).RoomsAgree ∅ := by decide +kernel
  exact ⟨_, hw, (oneRequirementPerRoom_iff _ _ _ hw).1.2 hagree⟩

/-- The second entry of a room need not give it a requirement, and then its locations are not behind the door. -/
theorem oneRequirementPerRoom_not_cellar :
    ¬ ∀ (flags : FlagNames) (d : Document) (w : World), World.ofDocument flags d = .ok w → w.OneRequirementPerRoom := by
  intro h
  have hread : (tabulateRooms ∅ ((cellar [("01", .null)]).part .rooms)).map (fun places =>
      ((places.get? ⟨⟨0x0A, 0x01, 0x1F⟩, 0⟩).map Place.room, (places.get? ⟨⟨0x0A, 0x01, 0x1F⟩, 1⟩).map Place.room)) =
      .ok (some (.expression ⟨[⟨[some (.reference "door_open")], by simp⟩], by simp⟩), some .free) := by
    decide +kernel
  obtain ⟨places, hplaces, hrooms⟩ := map_eq_ok.1 hread
  obtain ⟨hfirst, hsecond⟩ := Prod.ext_iff.1 hrooms
  obtain ⟨p, hp, hdoor⟩ := Option.map_eq_some_iff.1 hfirst
  obtain ⟨p', hp', hfree⟩ := Option.map_eq_some_iff.1 hsecond
  have hw : World.ofDocument ∅ (cellar [("01", .null)]) = .ok ⟨∅, ∅, ∅, ∅, places⟩ :=
    ofDocument_eq_ok.2 ⟨rfl, rfl, rfl, rfl, hplaces⟩
  have hsame := h _ _ _ hw _ p _ p' hp hp' rfl
  rw [hdoor, hfree] at hsame
  cases hsame

end Progression
