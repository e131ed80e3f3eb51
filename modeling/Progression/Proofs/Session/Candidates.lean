import Progression.Proofs.FirstOccurrence
import Progression.Proofs.Session.Queries
import Progression.Proofs.World.Locations

/-!
# Accessible locations among candidates

The accessible ones can be picked out of any candidates. A candidate is looked up by its key and checked like a location
of the world, so picking them out of all locations is listing the accessible locations (`accessibleAmong_allLocations`).
Candidates that come again are not checked again. So what is picked out, and what it fails with, can be told from the
checks of the single candidates, in the order in which they first come (`accessibleAmong_correct`).
-/

namespace Progression

section

variable {ε α : Type} [DecidableEq α] {f : α → Except ε Bool} {l : List α} {e : ε}

/-- What comes again changes nothing about the first failure. -/
theorem FirstFailure.eraseDups (h : FirstFailure f l e) : FirstFailure f l.eraseDups e := by
  obtain ⟨before, a, after, rfl, hbefore, ha⟩ := h
  have hnew : a ∉ before := by
    intro hmem
    obtain ⟨b, hb⟩ := hbefore a hmem
    rw [ha] at hb
    cases hb
  obtain ⟨rest, hrest⟩ := eraseDups_append_cons hnew after
  exact ⟨before.eraseDups, a, rest, hrest, fun c hc => hbefore c (List.mem_eraseDups.1 hc), ha⟩

theorem filterM_eraseDups_eq_error : l.eraseDups.filterM f = .error e ↔ FirstFailure f l e := by
  constructor
  · intro h
    cases hall : l.filterM f with
    | error e' =>
      have hfirst : FirstFailure f l e' := filterM_eq_error.1 hall
      have h' := filterM_eq_error.2 hfirst.eraseDups
      rw [h] at h'
      cases h'
      exact hfirst
    | ok l' =>
      -- all can be tested, so those that are left can
      obtain ⟨hok, -⟩ := filterM_eq_ok.1 hall
      have h' := filterM_eq_ok.2 ⟨fun a ha => hok a (List.mem_eraseDups.1 ha), rfl⟩
      rw [h] at h'
      cases h'
  · intro h
    exact filterM_eq_error.2 h.eraseDups

end

namespace Session

/-- The keys of all locations, in the order of the world. -/
def allLocations (s : Session) : List LocationKey := s.world.places.keys

/-- The keys are those of the accessible candidates: each once, in the order in which the candidates first come. -/
structure Picks (s : Session) (candidates keys : List LocationKey) : Prop where
  order : keys.Pairwise fun a b => candidates.idxOf a < candidates.idxOf b
  mem_iff : ∀ k, k ∈ keys ↔ k ∈ candidates ∧ (s.isAccessible k).answer = .ok true

variable {s : Session} {candidates keys keys' : List LocationKey} {k : LocationKey} {b : Bool}

/-! ## All locations -/

/-- Picking the accessible locations out of all is listing them, with the same failure and the same log. -/
theorem accessibleAmong_allLocations (s : Session) : s.accessibleAmong s.allLocations = s.accessible := by
  have hkeys : s.world.places.keys.eraseDups = s.world.places.keys := eraseDups_eq_self s.world.places.nodup
  unfold accessibleAmong allLocations accessible
  rw [hkeys]
  exact filterM_map fun e he => isAccessible_of_mem he

/-- In a world that is read they are the keys that were registered. -/
theorem allLocations_eq_keys {flags : FlagNames} {d : Document} {a : Atlas}
    (h : World.ofDocument flags d = .ok s.world) (ha : readRooms flags (d.part .rooms) = .ok a) :
    s.allLocations = a.names.keys := by
  obtain ⟨a', ha', hkeeps⟩ := exists_keeps_of_ofDocument h
  obtain rfl : a = a' := Except.ok.inj (ha.symm.trans ha')
  exact hkeeps.keys_eq.symm

/-! ## Candidates -/

/-- A candidate that can be checked is a location of the world. -/
theorem mem_places_of_isAccessible (h : (s.isAccessible k).answer = .ok b) : k ∈ s.world.places := by
  unfold isAccessible at h
  cases hget : s.world.places.get? k with
  | none =>
    rw [hget] at h
    cases h
  | some p => exact Table.mem_iff_get?.2 ⟨p, hget⟩

theorem Picks.unique (h : s.Picks candidates keys) (h' : s.Picks candidates keys') : keys = keys' := by
  refine eq_of_pairwise_idxOf h.order h'.order fun k => ?_
  rw [h.mem_iff, h'.mem_iff]

theorem picks_filter (s : Session) (candidates : List LocationKey) :
    s.Picks candidates (candidates.eraseDups.filter fun k => affirmed (s.isAccessible k).answer) where
  order := (pairwise_eraseDups candidates).filter _
  mem_iff k := by rw [List.mem_filter, List.mem_eraseDups, affirmed_eq_true]

theorem accessibleAmong_eq_ok :
    (s.accessibleAmong candidates).answer = .ok keys ↔
      (∀ k ∈ candidates, ∃ b, (s.isAccessible k).answer = .ok b) ∧ s.Picks candidates keys := by
  unfold accessibleAmong
  rw [Query.answer_filterM, filterM_eq_ok]
  constructor
  · rintro ⟨hall, rfl⟩
    exact ⟨fun k hk => hall k (List.mem_eraseDups.2 hk), picks_filter s candidates⟩
  · rintro ⟨hall, hpicks⟩
    exact ⟨fun k hk => hall k (List.mem_eraseDups.1 hk), hpicks.unique (picks_filter s candidates)⟩

end Session

/-- Picking the accessible locations out of all locations is listing the accessible locations; in a world that is read,
all locations are those that were registered. Out of any candidates, they can be picked if every candidate is a location
of the world that can be checked, and then they are the accessible candidates, each once, in the order in which they
first come; otherwise it fails as the first candidate that cannot be checked does. -/
theorem accessibleAmong_correct (s : Session) :
    s.accessibleAmong s.allLocations = s.accessible ∧
    (∀ candidates keys, (s.accessibleAmong candidates).answer = .ok keys ↔
      (∀ k ∈ candidates, k ∈ s.world.places ∧ ∃ b, (s.isAccessible k).answer = .ok b) ∧
        s.Picks candidates keys) ∧
    (∀ candidates e, (s.accessibleAmong candidates).answer = .error e ↔
      FirstFailure (fun k => (s.isAccessible k).answer) candidates e) ∧
    ∀ (flags : FlagNames) (d : Document) (a : Atlas), World.ofDocument flags d = .ok s.world →
      readRooms flags (d.part .rooms) = .ok a → s.allLocations = a.names.keys := by
  refine ⟨s.accessibleAmong_allLocations, fun candidates keys => ?_, fun candidates e => ?_,
    fun flags d a => Session.allLocations_eq_keys⟩
  · rw [Session.accessibleAmong_eq_ok]
    constructor
    · rintro ⟨hall, hpicks⟩
      refine ⟨fun k hk => ?_, hpicks⟩
      obtain ⟨b, hb⟩ := hall k hk
      exact ⟨Session.mem_places_of_isAccessible hb, b, hb⟩
    · rintro ⟨hall, hpicks⟩
      exact ⟨fun k hk => (hall k hk).2, hpicks⟩
  · unfold Session.accessibleAmong
    rw [Query.answer_filterM]
    exact filterM_eraseDups_eq_error

/-- A session in which two of three locations are accessible. -/
def porch : Session := .start {
    flags := ∅
    definitions := ∅
    glitchDefinitions := ∅
    preferences := ∅
    places := .ofList [
      (⟨⟨1, 2, 3⟩, 0⟩, ⟨.free, .free, []⟩),
      (⟨⟨1, 2, 3⟩, 1⟩, ⟨.free, .atom (.item 5), []⟩),
      (⟨⟨1, 2, 3⟩, 2⟩, ⟨.free, .free, []⟩)] } .default

/-- Of candidates out of order, one of them twice, the accessible ones are picked; an unknown one makes it fail. -/
theorem accessibleAmong_correct_porch :
    porch.Picks [⟨⟨1, 2, 3⟩, 2⟩, ⟨⟨1, 2, 3⟩, 1⟩, ⟨⟨1, 2, 3⟩, 0⟩, ⟨⟨1, 2, 3⟩, 2⟩]
      [⟨⟨1, 2, 3⟩, 2⟩, ⟨⟨1, 2, 3⟩, 0⟩] ∧
    FirstFailure (fun k => (porch.isAccessible k).answer)
      [⟨⟨1, 2, 3⟩, 0⟩, ⟨⟨1, 2, 4⟩, 0⟩, ⟨⟨1, 2, 3⟩, 1⟩] (.ofCause (.unknownLocation ⟨⟨1, 2, 4⟩, 0⟩)) :=
  ⟨(((accessibleAmong_correct porch).2.1 _ _).1 rfl).2, ((accessibleAmong_correct porch).2.2.1 _ _).1 rfl⟩

end Progression
