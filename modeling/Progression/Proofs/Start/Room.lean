import Progression.Proofs.Draws
import Progression.Proofs.Failing
import Progression.Proofs.Numeric.Order
import Progression.Proofs.Session.Queries
import Progression.Start.Room

/-!
# Which room is started in

Each step of the choice keeps the rooms of which one thing holds: those that can be started in (`mem_validRooms`), of
these the ones that open up enough if any does (`mem_preferOpen`), and of these the ones whose difficulty is easy enough
(`mem_preferEasy`). Only the last step can leave nothing of something, and only where no room has a difficulty
(`preferEasy_ne_nil`): the least difficulty is found by equality with a number that is gathered from infinity on, and it
is equal to one of the difficulties, infinite ones included. A probe that fails ends the choice (`probeRooms_eq_error`).
-/

namespace Progression

/-! ## Rooms to choose from -/

section

variable (candidates : List RoomCandidate) (game : Game) (settings : RoomSettings) (probe : Nat → Except Failure Nat)

/-- The room can be started in. -/
def CanStart (c : Placed) : Prop := candidates[c.2]? = some c.1 ∧ c.1.isValid game settings.removedAreas = true

/-- More than three locations are accessible from the room, as its probe reports. -/
def OpensUp (c : Placed) : Prop := ∃ n, probe c.2 = .ok n ∧ 3 < n

/-- The room can be started in, and opens up enough if any such room does. -/
def IsPreferred (c : Placed) : Prop :=
  CanStart candidates game settings c ∧
    ((∃ c', CanStart candidates game settings c' ∧ OpensUp probe c') → OpensUp probe c)

/-- The preferred room has a difficulty. -/
def IsRated (c : Placed) (x : Single) : Prop :=
  IsPreferred candidates game settings probe c ∧ c.1.difficulty = some x

end

variable {candidates : List RoomCandidate} {game : Game} {settings : RoomSettings} {probe : Nat → Except Failure Nat}
  {c : Placed}

theorem mem_validRooms : c ∈ validRooms candidates game settings ↔ CanStart candidates game settings c := by
  unfold validRooms
  rw [List.mem_filter, List.mem_zipIdx_iff_getElem?]
  exact Iff.rfl

/-- The rooms stand in the order of the candidates. -/
theorem pairwise_validRooms (candidates : List RoomCandidate) (game : Game) (settings : RoomSettings) :
    (validRooms candidates game settings).Pairwise fun c c' => c.2 < c'.2 := by
  have hall : candidates.zipIdx.Pairwise fun c c' => c.2 < c'.2 := by
    rw [← List.pairwise_map (f := Prod.snd) (R := (· < ·)), List.zipIdx_map_snd]
    exact List.pairwise_lt_range'
  exact hall.filter _

/-! ## Probing -/

theorem probe_eq_ok {p : Placed × Nat} :
    (do return (c, ← within (.probing c.1.room) (probe c.2)) : Except Failure (Placed × Nat)) = .ok p ↔
      p.1 = c ∧ probe c.2 = .ok p.2 := by
  rw [bind_eq_ok]
  constructor
  · rintro ⟨n, hn, hp⟩
    cases hp
    exact ⟨rfl, within_eq_ok.1 hn⟩
  · rintro ⟨rfl, hprobe⟩
    exact ⟨p.2, within_eq_ok.2 hprobe, rfl⟩

theorem mem_of_probeRooms {rooms : List Placed} {probed : List (Placed × Nat)} {p : Placed × Nat}
    (h : probeRooms probe rooms = .ok probed) : p ∈ probed ↔ p.1 ∈ rooms ∧ probe p.1.2 = .ok p.2 := by
  have hrows := mapM_eq_ok.1 h
  constructor
  · intro hp
    obtain ⟨c, hc, hcp⟩ := exists_of_mem_right hrows hp
    obtain ⟨rfl, hprobe⟩ := probe_eq_ok.1 hcp
    exact ⟨hc, hprobe⟩
  · rintro ⟨hp, hprobe⟩
    obtain ⟨p', hp', hcp⟩ := exists_of_mem_left hrows hp
    obtain ⟨hroom, hprobe'⟩ := probe_eq_ok.1 hcp
    rw [hprobe] at hprobe'
    have hsame : p = p' := Prod.ext hroom.symm (Except.ok.inj hprobe')
    rwa [hsame]

theorem exists_probe_of_mem {rooms : List Placed} {probed : List (Placed × Nat)}
    (h : probeRooms probe rooms = .ok probed) (hc : c ∈ rooms) : ∃ n, probe c.2 = .ok n := by
  obtain ⟨p, -, hcp⟩ := exists_of_mem_left (mapM_eq_ok.1 h) hc
  exact ⟨p.2, (probe_eq_ok.1 hcp).2⟩

theorem exists_probeRooms {rooms : List Placed} (h : ∀ c ∈ rooms, ∃ n, probe c.2 = .ok n) :
    ∃ probed, probeRooms probe rooms = .ok probed := by
  have hrows : ∀ c ∈ rooms, ∃ p, (do return (c, ← within (.probing c.1.room) (probe c.2)) :
      Except Failure (Placed × Nat)) = .ok p := fun c hc => by
    obtain ⟨n, hn⟩ := h c hc
    exact ⟨(c, n), probe_eq_ok.2 ⟨rfl, hn⟩⟩
  obtain ⟨probed, hprobed⟩ := exists_forall₂.2 hrows
  exact ⟨probed, mapM_eq_ok.2 hprobed⟩

theorem probeRooms_eq_error {e : Failure} (hc : CanStart candidates game settings c) (he : probe c.2 = .error e)
    (hfirst : ∀ c', CanStart candidates game settings c' → c'.2 < c.2 → ∃ n, probe c'.2 = .ok n) :
    probeRooms probe (validRooms candidates game settings) = .error (e.inside (.probing c.1.room)) := by
  obtain ⟨before, after, hsplit⟩ := List.append_of_mem (mem_validRooms.2 hc)
  have horder := pairwise_validRooms candidates game settings
  rw [hsplit, List.pairwise_append] at horder
  rw [hsplit]
  -- the rooms that stand before this one come before it in the candidates, so their probes report counts
  refine mapM_eq_error (fun c' hc' => ?_) ?_
  · have hlt : c'.2 < c.2 := horder.2.2 c' hc' c List.mem_cons_self
    have hmem : c' ∈ validRooms candidates game settings := hsplit ▸ List.mem_append_left _ hc'
    obtain ⟨n, hn⟩ := hfirst c' (mem_validRooms.1 hmem) hlt
    exact ⟨(c', n), probe_eq_ok.2 ⟨rfl, hn⟩⟩
  · rw [he]
    rfl

/-! ## Preferences -/

/-- What passes a test comes before what is there if nothing passes it. -/
theorem mem_filter_orElse {α : Type} {p : α → Bool} {l l' : List α} {a : α} :
    a ∈ (if (l.filter p).isEmpty then l' else l.filter p) ↔
      a ∈ l ∧ p a = true ∨ (∀ b ∈ l, ¬ p b = true) ∧ a ∈ l' := by
  rw [← List.filter_eq_nil_iff, ← List.mem_filter]
  by_cases h : l.filter p = []
  · simp [h]
  · simp [h]

theorem mem_preferOpen {probed : List (Placed × Nat)}
    (h : probeRooms probe (validRooms candidates game settings) = .ok probed) :
    c ∈ preferOpen probed ↔ IsPreferred candidates game settings probe c := by
  have hmem : ∀ c n, (c, n) ∈ probed ↔ CanStart candidates game settings c ∧ probe c.2 = .ok n := fun c n =>
    (mem_of_probeRooms h).trans (and_congr_left' mem_validRooms)
  unfold preferOpen fewLocations
  rw [List.mem_map]
  -- either a room with enough locations is there, and only such rooms are kept, or none is, and all rooms are
  constructor
  · rintro ⟨⟨c, n⟩, hc, rfl⟩
    rcases mem_filter_orElse.1 hc with ⟨hprobed, hopen⟩ | ⟨hnone, hprobed⟩
    · obtain ⟨hstart, hprobe⟩ := (hmem c n).1 hprobed
      exact ⟨hstart, fun _ => ⟨n, hprobe, of_decide_eq_true hopen⟩⟩
    · refine ⟨((hmem c n).1 hprobed).1, fun ⟨c', hstart', n', hprobe', hopen'⟩ => ?_⟩
      exact absurd (decide_eq_true hopen') (hnone (c', n') ((hmem c' n').2 ⟨hstart', hprobe'⟩))
  · rintro ⟨hstart, hopen⟩
    obtain ⟨n, hn⟩ := exists_probe_of_mem h (mem_validRooms.2 hstart)
    refine ⟨(c, n), mem_filter_orElse.2 ?_, rfl⟩
    by_cases hany : ∃ c', CanStart candidates game settings c' ∧ OpensUp probe c'
    · obtain ⟨n', hn', hlt⟩ := hopen hany
      obtain rfl := Except.ok.inj (hn.symm.trans hn')
      exact .inl ⟨(hmem c n).2 ⟨hstart, hn⟩, decide_eq_true hlt⟩
    · refine .inr ⟨fun p hp hlt => hany ?_, (hmem c n).2 ⟨hstart, hn⟩⟩
      obtain ⟨hstart', hprobe'⟩ := (hmem p.1 p.2).1 hp
      exact ⟨p.1, hstart', p.2, hprobe', of_decide_eq_true hlt⟩

/-! ## Difficulties -/

/-- The difficulty is not above the greatest one that is wanted, or it is the least of all if all are above. -/
def EasyEnough (most : Single) (difficulties : Set Single) (x : Single) : Prop :=
  ((∃ y ∈ difficulties, y.value ≤ most.value) → x.value ≤ most.value) ∧
    ((∀ y ∈ difficulties, ¬ y.value ≤ most.value) → ∀ y ∈ difficulties, x.value ≤ y.value)

/-- The difficulties of some rooms. -/
def difficultiesOf (rooms : List Placed) : Set Single := {x | ∃ c ∈ rooms, c.1.difficulty = some x}

/-- The rooms that have a difficulty, with it. -/
def ratedRooms (rooms : List Placed) : List (Placed × Single) :=
  rooms.filterMap fun c => c.1.difficulty.map fun d => (c, d)

section

variable {rooms : List Placed} {most x : Single}

theorem mem_ratedRooms : (c, x) ∈ ratedRooms rooms ↔ c ∈ rooms ∧ c.1.difficulty = some x := by
  unfold ratedRooms
  rw [List.mem_filterMap]
  constructor
  · rintro ⟨c', hc', h⟩
    obtain ⟨y, hy, hcy⟩ := Option.map_eq_some_iff.1 h
    cases hcy
    exact ⟨hc', hy⟩
  · rintro ⟨hc, hx⟩
    exact ⟨c, hc, by rw [hx]; rfl⟩

theorem mem_difficulties : x ∈ (ratedRooms rooms).map Prod.snd ↔ x ∈ difficultiesOf rooms := by
  rw [List.mem_map]
  constructor
  · rintro ⟨⟨c, y⟩, hc, rfl⟩
    exact ⟨c, mem_ratedRooms.1 hc⟩
  · rintro ⟨c, hc⟩
    exact ⟨(c, x), mem_ratedRooms.2 hc, rfl⟩

/-- Of difficulties there is one that is easy enough. -/
theorem exists_easyEnough {l : List Single} (hl : l ≠ []) (h : ∀ y ∈ l, y.isNaN = false) (most : Single) :
    ∃ x ∈ l, EasyEnough most {y | y ∈ l} x := by
  obtain ⟨x, l, rfl⟩ := List.exists_cons_of_ne_nil hl
  obtain ⟨hmem, hle⟩ := Single.foldl_least h
  by_cases heasy : ∃ y ∈ x :: l, y.value ≤ most.value
  · obtain ⟨y, hy, hmost⟩ := heasy
    exact ⟨y, hy, fun _ => hmost, fun hnone => absurd hmost (hnone y hy)⟩
  · exact ⟨_, hmem, fun h' => absurd h' heasy, fun _ y hy => (Single.value_le_iff (h _ hmem) (h y hy)).2 (hle y hy)⟩

theorem mem_preferEasy (hmost : most.isNaN = false) (hrooms : ∀ x ∈ difficultiesOf rooms, x.isNaN = false) :
    c ∈ preferEasy most rooms ↔
      ∃ x, c ∈ rooms ∧ c.1.difficulty = some x ∧ EasyEnough most (difficultiesOf rooms) x := by
  have hvalues : ∀ y ∈ (ratedRooms rooms).map Prod.snd, y.isNaN = false := fun y hy =>
    hrooms y (mem_difficulties.1 hy)
  have heasy : ∀ y ∈ difficultiesOf rooms, (y.le most = true ↔ y.value ≤ most.value) := fun y hy =>
    (Single.le_iff (hrooms y hy) hmost).trans (Single.value_le_iff (hrooms y hy) hmost).symm
  have hmem : ∀ c y, (c, y) ∈ ratedRooms rooms → y ∈ difficultiesOf rooms := fun c y h => ⟨c, mem_ratedRooms.1 h⟩
  show c ∈ List.map Prod.fst (if ((ratedRooms rooms).filter fun c => c.2.le most).isEmpty then
    (ratedRooms rooms).filter fun c => c.2.equals (((ratedRooms rooms).map Prod.snd).foldl Single.least .infinity)
    else (ratedRooms rooms).filter fun c => c.2.le most) ↔ _
  rw [List.mem_map]
  constructor
  · rintro ⟨⟨c, x⟩, hc, rfl⟩
    rcases mem_filter_orElse.1 hc with ⟨hrated, hle⟩ | ⟨hnone, hleast⟩
    · obtain ⟨hroom, hx⟩ := mem_ratedRooms.1 hrated
      have hle' : x.value ≤ most.value := (heasy x (hmem c x hrated)).1 hle
      exact ⟨x, hroom, hx, fun _ => hle', fun hnone => absurd hle' (hnone x (hmem c x hrated))⟩
    · obtain ⟨hrated, hequals⟩ := List.mem_filter.1 hleast
      obtain ⟨hroom, hx⟩ := mem_ratedRooms.1 hrated
      have hle := (Single.equals_least_iff hvalues (mem_difficulties.2 (hmem c x hrated))).1 hequals
      refine ⟨x, hroom, hx, fun ⟨y, ⟨c', hc', hy⟩, hmost'⟩ => ?_, fun _ y hy => hle y (mem_difficulties.2 hy)⟩
      exact absurd ((heasy y ⟨c', hc', hy⟩).2 hmost') (hnone (c', y) (mem_ratedRooms.2 ⟨hc', hy⟩))
  · rintro ⟨x, hroom, hx, hany, hnone⟩
    have hrated : (c, x) ∈ ratedRooms rooms := mem_ratedRooms.2 ⟨hroom, hx⟩
    refine ⟨(c, x), mem_filter_orElse.2 ?_, rfl⟩
    by_cases h : ∃ y ∈ difficultiesOf rooms, y.value ≤ most.value
    · exact .inl ⟨hrated, (heasy x (hmem c x hrated)).2 (hany h)⟩
    · have hle := hnone fun y hy hle => h ⟨y, hy, hle⟩
      refine .inr ⟨fun p hp hle' => h ⟨p.2, hmem p.1 p.2 hp, (heasy p.2 (hmem p.1 p.2 hp)).1 hle'⟩, ?_⟩
      refine List.mem_filter.2 ⟨hrated, (Single.equals_least_iff hvalues (mem_difficulties.2 (hmem c x hrated))).2 ?_⟩
      exact fun y hy => hle y (mem_difficulties.1 hy)

/-- A room is left if any room has a difficulty. -/
theorem preferEasy_ne_nil (hmost : most.isNaN = false) (hrooms : ∀ x ∈ difficultiesOf rooms, x.isNaN = false)
    (h : (difficultiesOf rooms).Nonempty) : preferEasy most rooms ≠ [] := by
  obtain ⟨y, hy⟩ := h
  have hset : {x | x ∈ (ratedRooms rooms).map Prod.snd} = difficultiesOf rooms := Set.ext fun _ => mem_difficulties
  obtain ⟨x, hx, heasy⟩ := exists_easyEnough (List.ne_nil_of_mem (mem_difficulties.2 hy))
    (fun z hz => hrooms z (mem_difficulties.1 hz)) most
  obtain ⟨c, hc, hcx⟩ := mem_difficulties.1 hx
  rw [hset] at heasy
  exact List.ne_nil_of_mem ((mem_preferEasy hmost hrooms).2 ⟨x, hc, hcx, heasy⟩)

end

/-! ## The choice -/

theorem answer_startingRoom {probed : List (Placed × Nat)} {d d' : Draws} {drawn : Option Placed}
    (h : probeRooms probe (validRooms candidates game settings) = .ok probed)
    (hdrawn : (Draws.choose (preferEasy settings.maxDifficulty (preferOpen probed))).run d = (drawn, d')) :
    (startingRoom candidates game settings probe d).answer =
      drawn.elim (.error (.ofCause .noStartingRoom)) fun c => .ok (c.2, d') := by
  unfold startingRoom
  rw [Query.answer_bind, Query.answer_ofExcept, h]
  dsimp only [bind, Except.bind]
  rw [hdrawn]
  cases drawn <;> rfl

theorem answer_startingRoom_of_error {e : Failure} (d : Draws)
    (h : probeRooms probe (validRooms candidates game settings) = .error e) :
    (startingRoom candidates game settings probe d).answer = .error e := by
  unfold startingRoom
  rw [Query.answer_bind, Query.answer_ofExcept, h]
  rfl

/-- The difficulties of the preferred rooms. -/
def ratings (candidates : List RoomCandidate) (game : Game) (settings : RoomSettings)
    (probe : Nat → Except Failure Nat) : Set Single := {x | ∃ c, IsRated candidates game settings probe c x}

/-- What is answered when the probe of every room that can be started in reports a count: no room if no preferred room
has a difficulty, and else a preferred room with a difficulty that is easy enough. -/
theorem startingRoom_of_probes (hmost : settings.maxDifficulty.isNaN = false)
    (hcandidates : ∀ c ∈ candidates, ∀ x ∈ c.difficulty, x.isNaN = false)
    (hprobes : ∀ c, CanStart candidates game settings c → ∃ n, probe c.2 = .ok n) (d : Draws) :
    ((¬ ∃ c x, IsRated candidates game settings probe c x) ∧
      (startingRoom candidates game settings probe d).answer = .error (.ofCause .noStartingRoom)) ∨
    ∃ c x d', IsRated candidates game settings probe c x ∧
      EasyEnough settings.maxDifficulty (ratings candidates game settings probe) x ∧
      (startingRoom candidates game settings probe d).answer = .ok (c.2, d') := by
  obtain ⟨probed, hprobed⟩ := exists_probeRooms fun c hc => hprobes c (mem_validRooms.1 hc)
  have hpreferred : ∀ c, c ∈ preferOpen probed ↔ IsPreferred candidates game settings probe c := fun c =>
    mem_preferOpen hprobed
  have hset : difficultiesOf (preferOpen probed) = ratings candidates game settings probe :=
    Set.ext fun x => exists_congr fun c => and_congr_left' (hpreferred c)
  have hnumbers : ∀ x ∈ difficultiesOf (preferOpen probed), x.isNaN = false := fun x ⟨c, hc, hx⟩ =>
    hcandidates c.1 (List.mem_of_getElem? ((hpreferred c).1 hc).1.1) x hx
  by_cases hrooms : preferEasy settings.maxDifficulty (preferOpen probed) = []
  · rw [answer_startingRoom hprobed (congrArg (fun rooms => (Draws.choose rooms).run d) hrooms)]
    refine .inl ⟨fun ⟨c, x, hc⟩ => ?_, rfl⟩
    exact preferEasy_ne_nil hmost hnumbers ⟨x, hset ▸ ⟨c, hc⟩⟩ hrooms
  · obtain ⟨c, hc, hchoose⟩ := Draws.exists_choose_eq hrooms d
    obtain ⟨x, hroom, hx, heasy⟩ := (mem_preferEasy hmost hnumbers).1 hc
    rw [hset] at heasy
    exact .inr ⟨c, x, _, ⟨(hpreferred c).1 hroom, hx⟩, heasy, answer_startingRoom hprobed (Prod.ext hchoose rfl)⟩

/-- Which room is started in, where no difficulty is a NaN. If the probe of some room that can be started in fails, then
the choice fails as the first of these probes does. Otherwise it fails if and only if no preferred room has a
difficulty, and else answers the position of a preferred room that has one: one that is not above the greatest wanted
difficulty if a preferred room has such a difficulty, and the least one if none has. -/
theorem startingRoom_choice (candidates : List RoomCandidate) (game : Game) (settings : RoomSettings)
    (probe : Nat → Except Failure Nat) (d : Draws) (hmost : settings.maxDifficulty.isNaN = false)
    (hcandidates : ∀ c ∈ candidates, ∀ x ∈ c.difficulty, x.isNaN = false) :
    ((∀ c, CanStart candidates game settings c → ∃ n, probe c.2 = .ok n) →
      ((∃ e, (startingRoom candidates game settings probe d).answer = .error e) ↔
        ¬ ∃ c x, IsRated candidates game settings probe c x) ∧
      ∀ i d', (startingRoom candidates game settings probe d).answer = .ok (i, d') →
        ∃ c x, c.2 = i ∧ IsRated candidates game settings probe c x ∧
          EasyEnough settings.maxDifficulty (ratings candidates game settings probe) x) ∧
    ∀ c e, CanStart candidates game settings c → probe c.2 = .error e →
      (∀ c', CanStart candidates game settings c' → c'.2 < c.2 → ∃ n, probe c'.2 = .ok n) →
      (startingRoom candidates game settings probe d).answer = .error (e.inside (.probing c.1.room)) := by
  refine ⟨fun hprobes => ?_, fun c e hc he hfirst => ?_⟩
  · rcases startingRoom_of_probes hmost hcandidates hprobes d with ⟨hnone, hanswer⟩ | ⟨c, x, d', hc, heasy, hanswer⟩
    · rw [hanswer]
      exact ⟨iff_of_true ⟨_, rfl⟩ hnone, fun i d' h => by cases h⟩
    · rw [hanswer]
      refine ⟨iff_of_false (fun ⟨e, h⟩ => by cases h) (fun hnone => hnone ⟨c, x, hc⟩), fun i d'' h => ?_⟩
      cases h
      exact ⟨c, x, rfl, hc, heasy⟩
  · exact answer_startingRoom_of_error d (probeRooms_eq_error hc he hfirst)

/-- A room with nothing against it. -/
def vestibule (difficulty : Option Single) : RoomCandidate where
  room := ⟨0, 0, 0⟩
  areaName := ""
  sectorName := ""
  mapY := 0
  layers := 1
  usableDoors := 1
  hasSavePoint := true
  hasWarpPoint := true
  hasBoss := false
  unused := false
  difficulty := difficulty

/-- A room without a difficulty, one that is infinitely hard, and one of difficulty 2. -/
def vestibules : List RoomCandidate := [vestibule none, vestibule (some .infinity), vestibule (some ⟨0x40000000⟩)]

/-- Difficulties up to 1 are wanted. -/
def modest : RoomSettings := ⟨⟨0x3F800000⟩, []⟩

/-- The probe of the second room fails. -/
def stuck : Nat → Except Failure Nat := fun i => if i = 1 then .error (.ofCause .noStartingRoom) else .ok 4

/-- The least difficulty is chosen where all are too hard, and a probe that fails is told of. -/
theorem startingRoom_choice_vestibules :
    (modest.maxDifficulty.isNaN = false ∧ ∀ c ∈ vestibules, ∀ x ∈ c.difficulty, x.isNaN = false) ∧
      (startingRoom vestibules .dos modest (fun _ => .ok 4) ⟨[], 0⟩).answer = .ok (2, ⟨[], 1⟩) ∧
      (∃ c x, c.2 = 2 ∧ IsRated vestibules .dos modest (fun _ => .ok 4) c x ∧
        EasyEnough modest.maxDifficulty (ratings vestibules .dos modest fun _ => .ok 4) x) ∧
      (startingRoom vestibules .dos modest stuck ⟨[], 0⟩).answer =
        .error (.inside (.ofCause .noStartingRoom) (.probing ⟨0, 0, 0⟩)) := by
  have hmost : modest.maxDifficulty.isNaN = false := by decide
  have hrooms : ∀ c ∈ vestibules, ∀ x ∈ c.difficulty, x.isNaN = false := by decide
  have hanswer : (startingRoom vestibules .dos modest (fun _ => .ok 4) ⟨[], 0⟩).answer = .ok (2, ⟨[], 1⟩) := rfl
  have hopen := (startingRoom_choice vestibules .dos modest (fun _ => .ok 4) ⟨[], 0⟩ hmost hrooms).1
  have hstuck := (startingRoom_choice vestibules .dos modest stuck ⟨[], 0⟩ hmost hrooms).2
  refine ⟨⟨hmost, hrooms⟩, hanswer, (hopen fun _ _ => ⟨4, rfl⟩).2 2 _ hanswer, ?_⟩
  refine hstuck (vestibule (some .infinity), 1) _ ⟨rfl, rfl⟩ rfl fun c' _ hlt => ?_
  have hfirst : c'.2 ≠ 1 := Nat.ne_of_lt hlt
  exact ⟨4, if_neg hfirst⟩

end Progression
