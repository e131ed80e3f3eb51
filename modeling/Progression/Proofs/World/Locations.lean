import Progression.Proofs.World.Atlas

/-!
# The locations of a world

A document lists locations as the keys of its rooms, but for the key of the room itself (`Document.locationEntries`).
A world that is read from it has one location for each of them, in the order of the document, and nothing else
(`describes_places`). No two of them have one key, so a document in which two keys denote one location is not read
(`eq_of_denotes`). The three structures into which the locations are read are in step (`ofDocument_locations`).
-/

namespace Progression

/-! ## What a document lists -/

/-- Whether a key of a room is that of the room itself. -/
def isRoomKey (s : String) : Bool := Text.trim s.toList = ['r', 'o', 'o', 'm']

/-- A key of a room that is not that of the room itself, with its value and what else the room has. -/
structure LocationEntry where
  room : String
  key : String
  value : Document
  /-- The whole room, in the order of the document. -/
  members : List (String × Document)

namespace LocationEntry

/-- The value of the last key of the room itself, if it has one. -/
def roomValue? (e : LocationEntry) : Option Document :=
  (e.members.filter fun m => isRoomKey m.1).getLast?.map Prod.snd

/-- The entry denotes the location, whatever it asks for. -/
def Denotes (e : LocationEntry) (k : LocationKey) : Prop :=
  RoomKey.ofText e.room = .ok k.room ∧ ∃ tags, SubKey.ofText e.key = .ok ⟨k.entity, tags⟩

/-- The entry denotes the location and says what is known about it. -/
structure Describes (flags : FlagNames) (e : LocationEntry) (k : LocationKey) (p : Place) : Prop where
  room : RoomKey.ofText e.room = .ok k.room
  subKey : SubKey.ofText e.key = .ok ⟨k.entity, p.tags⟩
  entityRequirement : Requirement.ofDocument flags e.value = .ok p.entity
  roomRequirement : e.roomValue?.elim (p.room = .free) fun v => Requirement.ofDocument flags v = .ok p.room

end LocationEntry

/-- The entries of a room with a text that stand for locations. -/
def roomEntries (room : String) (members : List (String × Document)) : List LocationEntry :=
  (members.filter fun m => !isRoomKey m.1).map fun m => ⟨room, m.1, m.2, members⟩

/-- The entries of a document that stand for locations, room by room. -/
def Document.locationEntries (d : Document) : List LocationEntry :=
  ((d.part .rooms).members?.getD []).flatMap fun m => roomEntries m.1 (m.2.members?.getD [])

variable {flags : FlagNames} {d : Document} {w : World} {e : LocationEntry} {k k' : LocationKey} {p p' : Place}

/-! ## Entries and locations -/

theorem LocationEntry.Describes.denotes (h : e.Describes flags k p) : e.Denotes k :=
  ⟨h.room, p.tags, h.subKey⟩

/-- An entry denotes one location only. -/
theorem LocationEntry.Denotes.unique (h : e.Denotes k) (h' : e.Denotes k') : k = k' := by
  obtain ⟨hroom, tags, hkey⟩ := h
  obtain ⟨hroom', tags', hkey'⟩ := h'
  have hr := Except.ok.inj (hroom.symm.trans hroom')
  have hk := congrArg SubKey.entity (Except.ok.inj (hkey.symm.trans hkey'))
  obtain ⟨r, i⟩ := k
  obtain ⟨r', i'⟩ := k'
  exact LocationKey.mk.injEq .. ▸ ⟨hr, hk⟩

/-- An entry says one thing only. -/
theorem LocationEntry.Describes.unique (h : e.Describes flags k p) (h' : e.Describes flags k' p') :
    k = k' ∧ p = p' := by
  refine ⟨h.denotes.unique h'.denotes, ?_⟩
  have htags := congrArg SubKey.tags (Except.ok.inj (h.subKey.symm.trans h'.subKey))
  have hentity := Except.ok.inj (h.entityRequirement.symm.trans h'.entityRequirement)
  have hroom : p.room = p'.room := by
    have hreq := h.roomRequirement
    have hreq' := h'.roomRequirement
    cases hvalue : e.roomValue? with
    | none =>
      rw [hvalue] at hreq hreq'
      exact hreq.trans hreq'.symm
    | some v =>
      rw [hvalue] at hreq hreq'
      exact Except.ok.inj (hreq.symm.trans hreq')
  obtain ⟨r, q, t⟩ := p
  obtain ⟨r', q', t'⟩ := p'
  exact Place.mk.injEq .. ▸ ⟨hroom, hentity, htags⟩

/-! ## Reading a room -/

/-- What has been gathered from some entries of a room. -/
structure RoomRules.Gathers (flags : FlagNames) (members : List (String × Document)) (rules : RoomRules) : Prop where
  entities : List.Forall₂ (fun m x => SubKey.ofText m.1 = .ok x.1 ∧ Requirement.ofDocument flags m.2 = .ok x.2)
    (members.filter fun m => !isRoomKey m.1) rules.entities
  requirement : ((members.filter fun m => isRoomKey m.1).getLast?.map Prod.snd).elim (rules.requirement = .free)
    fun v => Requirement.ofDocument flags v = .ok rules.requirement

theorem gathers_nil (flags : FlagNames) : RoomRules.Gathers flags [] ⟨.free, []⟩ :=
  ⟨.nil, rfl⟩

theorem gathers_addEntry {room : RoomKey} {members : List (String × Document)} {rules rules' : RoomRules}
    {m : String × Document} (h : rules.Gathers flags members) (hm : rules.addEntry flags room m = .ok rules') :
    rules'.Gathers flags (members ++ [m]) := by
  obtain ⟨hentities, hreq⟩ := h
  unfold RoomRules.addEntry at hm
  obtain ⟨r, hr, hm⟩ := bind_eq_ok.1 hm
  rw [within_eq_ok] at hr
  split at hm
  · next hroom =>
    cases hm
    have hkey : isRoomKey m.1 = true := decide_eq_true hroom
    refine ⟨?_, ?_⟩
    · rw [List.filter_append, List.filter_singleton, hkey, Bool.not_true, cond_false, List.append_nil]
      exact hentities
    · rw [List.filter_append, List.filter_singleton, hkey, cond_true, List.getLast?_concat]
      exact hr
  · next hroom =>
    obtain ⟨k, hk, hm⟩ := bind_eq_ok.1 hm
    rw [within_eq_ok] at hk
    cases hm
    have hkey : isRoomKey m.1 = false := decide_eq_false hroom
    refine ⟨?_, ?_⟩
    · rw [List.filter_append, List.filter_singleton, hkey, Bool.not_false, cond_true]
      exact List.rel_append hentities (.cons ⟨hk, hr⟩ .nil)
    · rw [List.filter_append, List.filter_singleton, hkey, cond_false, List.append_nil]
      exact hreq

/-! ## Taking in locations -/

theorem addPlace_eq_ok {places places' : Table LocationKey Place} {e : LocationKey × Place} :
    addPlace places e = .ok places' ↔ e.1 ∉ places ∧ places' = places.set e.1 e.2 := by
  unfold addPlace
  split
  · next h => exact ⟨nofun, fun h' => absurd h h'.1⟩
  · next h => exact ⟨fun h' => ⟨h, (Except.ok.inj h').symm⟩, fun h' => by rw [h'.2]⟩

/-- Locations that are taken in come after those that are there. -/
theorem entries_of_addPlaces {places places' : Table LocationKey Place} {l : List (LocationKey × Place)}
    (h : l.foldlM addPlace places = .ok places') : places'.entries = places.entries ++ l := by
  refine of_foldlM (I := fun l c => c.entries = places.entries ++ l) (List.append_nil _).symm ?_ h
  intro l e c c' hc he
  obtain ⟨hnew, rfl⟩ := addPlace_eq_ok.1 he
  rw [Table.entries_set_of_notMem hnew, hc, List.append_assoc]

/-- The locations of a room are those that its entries describe. -/
theorem describes_roomLocations {m : String × Document} {l : List (LocationKey × Place)}
    (h : roomLocations flags m = .ok l) :
    List.Forall₂ (fun e x => e.Describes flags x.1 x.2) (roomEntries m.1 (m.2.members?.getD [])) l := by
  unfold roomLocations at h
  obtain ⟨room, hroom, h⟩ := bind_eq_ok.1 h
  split at h
  · cases h
  · next members hmembers =>
    obtain ⟨rules, hrules, h⟩ := bind_eq_ok.1 h
    obtain ⟨hentities, hreq⟩ := of_foldlM (gathers_nil flags) (fun _ _ _ _ => gathers_addEntry) hrules
    cases h
    rw [hmembers, Option.getD_some, roomEntries, List.forall₂_map_left_iff, List.forall₂_map_right_iff]
    exact hentities.imp fun _ _ hx => ⟨hroom, hx.1, hx.2, hreq⟩

/-- The locations of a world are those that the entries of its document describe, in their order. -/
theorem describes_places (h : World.ofDocument flags d = .ok w) :
    List.Forall₂ (fun e x => e.Describes flags x.1 x.2) d.locationEntries w.places.entries := by
  obtain ⟨rooms, hrooms, hplaces⟩ := bind_eq_ok.1 (ofDocument_eq_ok.1 h).places
  have hmembers : (d.part .rooms).members? = some rooms := by
    unfold Part.members at hrooms
    split at hrooms
    · next hsome =>
      cases hrooms
      exact hsome
    · cases hrooms
  rw [Document.locationEntries, hmembers, Option.getD_some]
  refine of_foldlM (I := fun l c => List.Forall₂ (fun e x => e.Describes flags x.1 x.2)
    (l.flatMap fun m => roomEntries m.1 (m.2.members?.getD [])) c.entries) .nil ?_ hplaces
  intro l m c c' hc hm
  obtain ⟨locations, hlocations, hadded⟩ := bind_eq_ok.1 hm
  rw [List.flatMap_append, List.flatMap_singleton, entries_of_addPlaces hadded]
  exact List.rel_append hc (describes_roomLocations hlocations)

/-! ## Looking up a location -/

theorem get?_places_eq_some_iff (h : World.ofDocument flags d = .ok w) :
    w.places.get? k = some p ↔ ∃ e ∈ d.locationEntries, e.Describes flags k p := by
  have hplaces := describes_places h
  rw [Table.get?_eq_some_iff]
  constructor
  · intro hmem
    obtain ⟨e, he, hdescribes⟩ := exists_of_mem_right hplaces hmem
    exact ⟨e, he, hdescribes⟩
  · rintro ⟨e, he, hdescribes⟩
    obtain ⟨⟨k', p'⟩, hmem, hdescribes'⟩ := exists_of_mem_left hplaces he
    obtain ⟨rfl, rfl⟩ := hdescribes.unique hdescribes'
    exact hmem

theorem get?_places_eq_none_iff (h : World.ofDocument flags d = .ok w) :
    w.places.get? k = none ↔ ∀ e ∈ d.locationEntries, ¬ e.Denotes k := by
  rw [Option.eq_none_iff_forall_ne_some]
  constructor
  · intro hnone e he hdenotes
    obtain ⟨⟨k', p⟩, hmem, hdescribes⟩ := exists_of_mem_left (describes_places h) he
    obtain rfl := hdenotes.unique hdescribes.denotes
    exact hnone p (Table.get?_eq_some_iff.2 hmem)
  · intro hall p hp
    obtain ⟨e, he, hdescribes⟩ := (get?_places_eq_some_iff h).1 hp
    exact hall e he hdescribes.denotes

/-- Two entries of a document that is read do not denote one location. -/
theorem eq_of_denotes (h : World.ofDocument flags d = .ok w) {i j : Nat} {e e' : LocationEntry}
    (hi : d.locationEntries[i]? = some e) (hj : d.locationEntries[j]? = some e') (he : e.Denotes k)
    (he' : e'.Denotes k) : i = j := by
  have hkey : ∀ {i : Nat} {e : LocationEntry}, d.locationEntries[i]? = some e → e.Denotes k →
      w.places.keys[i]? = some k := by
    intro i e hi he
    obtain ⟨⟨k', p⟩, hplace, hdescribes⟩ := exists_getElem?_of_forall₂ (describes_places h) hi
    obtain rfl := he.unique hdescribes.denotes
    rw [Table.keys, List.getElem?_map, hplace, Option.map_some]
  have hlt : i < w.places.keys.length := (List.getElem?_eq_some_iff.1 (hkey hi he)).1
  exact (List.getElem?_inj hlt w.places.nodup).1 ((hkey hi he).trans (hkey hj he').symm)

/-- A world that is read has the locations that the entries of its document describe, each once. They are read into
three structures that are in step, which find the location of every key as the world does. A document in which two
entries denote one location is not read. -/
theorem ofDocument_locations (flags : FlagNames) (d : Document) :
    (∀ w, World.ofDocument flags d = .ok w →
      ∃ a : Atlas, readRooms flags (d.part .rooms) = .ok a ∧ a.InStep ∧ a.values = w.places.entries ∧
        (∀ k, a.get? k = some ((w.places.get? k).map fun p => (k, p))) ∧
        (∀ k p, w.places.get? k = some p ↔ ∃ e ∈ d.locationEntries, e.Describes flags k p) ∧
        (∀ k, w.places.get? k = none ↔ ∀ e ∈ d.locationEntries, ¬ e.Denotes k) ∧
        List.Forall₂ (fun e x => e.Describes flags x.1 x.2) d.locationEntries a.values) ∧
    ∀ (i j : Nat) (e e' : LocationEntry) (k : LocationKey), i < j → d.locationEntries[i]? = some e →
      d.locationEntries[j]? = some e' → e.Denotes k → e'.Denotes k → ∃ f, World.ofDocument flags d = .error f := by
  constructor
  · intro w h
    obtain ⟨a, ha, hkeeps⟩ := exists_keeps_of_ofDocument h
    refine ⟨a, ha, hkeeps.inStep, hkeeps.entries, hkeeps.get?_eq, fun _ _ => get?_places_eq_some_iff h,
      fun _ => get?_places_eq_none_iff h, ?_⟩
    rw [hkeeps.entries]
    exact describes_places h
  · intro i j e e' k hij hi hj he he'
    cases h : World.ofDocument flags d with
    | error f => exact ⟨f, rfl⟩
    | ok w => exact absurd (eq_of_denotes h hi hj he he') (Nat.ne_of_lt hij)

/-- A room with its own key after that of a location, and the same room again under another spelling. -/
def shed (again : String) : Document :=
  .object [("Rooms", .object [
    ("01-02-03", .object [("3 (Soul Candle) (Enemy)", .null), (" room", .text "door open")]),
    (" 01-02-03", .object [(again, .bool true)])])]

/-- The first location has the requirement of its room, and the second spelling of the room has none. With a second
spelling of the location the document is not read. -/
theorem ofDocument_locations_shed :
    (∃ w, World.ofDocument ∅ (shed "0B") = .ok w ∧
      ∃ e ∈ (shed "0B").locationEntries, e.Describes ∅ ⟨⟨1, 2, 3⟩, 3⟩
        ⟨.expression ⟨[⟨[some (.reference "door_open")], by simp⟩], by simp⟩, .free, [.enemy]⟩) ∧
    ∃ f, World.ofDocument ∅ (shed "0003 (Hidden)") = .error f := by
  have hread : (tabulateRooms ∅ ((shed "0B").part .rooms)).map (fun places => places.get? ⟨⟨1, 2, 3⟩, 3⟩) =
      .ok (some ⟨.expression ⟨[⟨[some (.reference "door_open")], by simp⟩], by simp⟩, .free, [.enemy]⟩) := by
    decide +kernel
  obtain ⟨places, hplaces, hget⟩ := map_eq_ok.1 hread
  have hw : World.ofDocument ∅ (shed "0B") = .ok ⟨∅, ∅, ∅, ∅, places⟩ :=
    ofDocument_eq_ok.2 ⟨rfl, rfl, rfl, rfl, hplaces⟩
  have hfirst : SubKey.ofText "3 (Soul Candle) (Enemy)" = .ok ⟨3, [.enemy]⟩ := by decide +kernel
  have hagain : SubKey.ofText "0003 (Hidden)" = .ok ⟨3, [.hidden]⟩ := by decide +kernel
  obtain ⟨a, -, -, -, -, hdescribes, -⟩ := (ofDocument_locations ∅ (shed "0B")).1 _ hw
  refine ⟨⟨_, hw, (hdescribes _ _).1 hget⟩, ?_⟩
  exact (ofDocument_locations ∅ (shed "0003 (Hidden)")).2 0 1 _ _ ⟨⟨1, 2, 3⟩, 3⟩ Nat.zero_lt_one rfl rfl
    ⟨rfl, [.enemy], hfirst⟩ ⟨rfl, [.hidden], hagain⟩

end Progression
