import Progression.Proofs.Session.Accessible
import Progression.Proofs.Session.Definedness

/-!
# Relaxed settings

Settings are relaxed by turning glitches on or by opening the world. A new session then has more definitions and grants
more, so what could be derived still can (`Session.grounded_of_relaxed`). Where no definition, glitches included, leads
back to itself, what can be derived is found, so no location is lost (`accessible_mono_of_relaxed`).
-/

namespace Progression

/-- The same game, where glitches stay on and the world stays open if they were. -/
structure Settings.RelaxesTo (strict relaxed : Settings) : Prop where
  game : relaxed.game = strict.game
  glitches : strict.glitches = true → relaxed.glitches = true
  openWorld : strict.openWorld = true → relaxed.openWorld = true

namespace Settings.RelaxesTo

variable {strict relaxed : Settings} (h : strict.RelaxesTo relaxed)
include h

/-- Which names are rules goes by the game alone. -/
theorem rule?_eq (n : Name) : relaxed.rule? n = strict.rule? n := by
  unfold rule?
  rw [h.game]

theorem value_of_value (rule : Rule) (hvalue : strict.value rule = true) : relaxed.value rule = true := by
  cases rule
  exact h.openWorld hvalue

end Settings.RelaxesTo

/-! ## The definitions of a new session -/

namespace World

variable {w : World}

/-- All definitions of a world, those for glitches included. -/
def allDefinitions (w : World) : Definitions := w.definitions.merge w.glitchDefinitions

theorem get?_allDefinitions (hdisjoint : ∀ n ∈ w.glitchDefinitions, n ∉ w.definitions) {n : Name} {r : Requirement}
    (h : w.definitions.get? n = some r) : w.allDefinitions.get? n = some r := by
  have hglitch : w.glitchDefinitions.get? n = none :=
    Table.get?_eq_none_iff.2 fun hn => hdisjoint n hn (Table.mem_iff_get?.2 ⟨r, h⟩)
  rw [allDefinitions, Table.get?_merge, hglitch, Option.none_or, h]

end World

namespace Session

variable {w : World} {settings strict relaxed : Settings}

theorem definitions_start (w : World) (settings : Settings) :
    (start w settings).definitions = if settings.glitches then w.allDefinitions else w.definitions := rfl

theorem get?_allDefinitions_of_start (hdisjoint : ∀ n ∈ w.glitchDefinitions, n ∉ w.definitions) {n : Name}
    {r : Requirement} (h : (start w settings).definitions.get? n = some r) : w.allDefinitions.get? n = some r := by
  rw [definitions_start] at h
  split at h
  · exact h
  · exact World.get?_allDefinitions hdisjoint h

/-- A binding of the stricter session is a binding of the other one. -/
theorem get?_start_of_relaxed (hrelax : strict.RelaxesTo relaxed)
    (hdisjoint : ∀ n ∈ w.glitchDefinitions, n ∉ w.definitions) {n : Name} {r : Requirement}
    (h : (start w strict).definitions.get? n = some r) : (start w relaxed).definitions.get? n = some r := by
  cases hglitches : relaxed.glitches with
  | true =>
    rw [definitions_start, if_pos hglitches]
    exact get?_allDefinitions_of_start hdisjoint h
  | false =>
    have hstrict : ¬ strict.glitches = true := fun hon => by simp [hrelax.glitches hon] at hglitches
    rw [definitions_start, if_neg hstrict] at h
    rw [definitions_start, if_neg (by simp [hglitches])]
    exact h

/-- References of a new session are references among all definitions, so they have no cycle if these have none. -/
theorem onlySelfLoops_start (hdisjoint : ∀ n ∈ w.glitchDefinitions, n ∉ w.definitions)
    (hacyclic : ∀ n, ¬ Relation.TransGen w.allDefinitions.Refers n n) (settings : Settings) :
    (start w settings).definitions.OnlySelfLoops := by
  have hrefers : ∀ n k, (start w settings).definitions.Refers n k → w.allDefinitions.Refers n k := by
    rintro n k ⟨r, hr, hk⟩
    exact ⟨r, get?_allDefinitions_of_start hdisjoint hr, hk⟩
  intro n k hnk hkn
  have hthere : Relation.TransGen w.allDefinitions.Refers n k := hnk.lift id hrefers
  have hback : Relation.TransGen w.allDefinitions.Refers k n := hkn.lift id hrefers
  exact absurd (hthere.trans hback) (hacyclic n)

/-! ## What can be derived -/

/-- What can be derived in the stricter session can be derived in the other one. -/
theorem grounded_of_relaxed (hrelax : strict.RelaxesTo relaxed)
    (hdisjoint : ∀ n ∈ w.glitchDefinitions, n ∉ w.definitions) {held : Inventory} {r : Requirement}
    (h : (start w strict).rulebook.Grounded held r) : (start w relaxed).rulebook.Grounded held r := by
  refine Derives.mono (fun _ => id) ?_ ?_ h
  · rintro n ⟨rule, hrule, hvalue⟩
    exact ⟨rule, (hrelax.rule?_eq n).trans hrule, hrelax.value_of_value rule hvalue⟩
  · rintro n b ⟨hrule, hget⟩
    exact ⟨(hrelax.rule?_eq n).trans hrule, get?_start_of_relaxed hrelax hdisjoint hget⟩

end Session

/-- Of two new sessions on a world, one with relaxed settings, that one has all accessible locations of the other,
whatever is held, if both can list theirs, no glitch name is also a name of the other definitions, and all definitions
together have no cycle of references. -/
theorem accessible_mono_of_relaxed (w : World) (strict relaxed : Settings) (hrelax : strict.RelaxesTo relaxed)
    (hdisjoint : ∀ n ∈ w.glitchDefinitions, n ∉ w.definitions)
    (hacyclic : ∀ n, ¬ Relation.TransGen w.allDefinitions.Refers n n) (held : Inventory)
    (before after : List LocationKey) (hbefore : ((Session.start w strict).holding held).accessible.answer = .ok before)
    (hafter : ((Session.start w relaxed).holding held).accessible.answer = .ok after) :
    ∀ key ∈ before, key ∈ after := by
  have hcomplete : (Session.start w relaxed).rulebook.Complete :=
    complete_of_onlySelfLoops (Session.onlySelfLoops_start hdisjoint hacyclic relaxed)
  intro key hkey
  obtain ⟨p, hp, hroom, hentity⟩ := (Session.mem_accessible hbefore).1 hkey
  have hgrounded : ∀ r, ((Session.start w strict).holding held).first r = .ok true →
      ((Session.start w relaxed).holding held).rulebook.Grounded held r := fun r hr =>
    Session.grounded_of_relaxed hrelax hdisjoint (Session.grounded_of_first hr)
  -- a location that can be derived is never denied where the rules are complete
  have hjudged : ¬ ((Session.start w relaxed).holding held).Misjudges (key, p) :=
    Session.not_misjudges_of_complete (s := (Session.start w relaxed).holding held) hcomplete (key, p)
  exact Session.mem_accessible_of_grounded hafter hp (hgrounded _ hroom) (hgrounded _ hentity) hjudged

/-- A yard that is free, a ledge that is reached by a glitch, and a gate that is open in an open world. -/
def cliffWorld : World where
  flags := ∅
  definitions := .ofList [
    ("ledge", .ofClauses (.ofNames "wall_clip" []) [.ofNames "key" []]),
    ("gate", .ofClauses (.ofNames "key" []) [.ofNames "nonlinear" []]),
    ("key", .atom (.item 3))]
  glitchDefinitions := .ofList [("wall_clip", .atom (.item 16))]
  preferences := ∅
  places := .ofList [
    (⟨⟨0, 0, 0⟩, 0⟩, ⟨.free, .free, []⟩),
    (⟨⟨0, 0, 1⟩, 0⟩, ⟨.free, .atom (.reference "ledge"), []⟩),
    (⟨⟨0, 0, 2⟩, 0⟩, ⟨.atom (.reference "gate"), .free, []⟩)]

theorem accessible_mono_of_relaxed_cliffWorld :
    Settings.RelaxesTo ⟨.ooe, false, false⟩ ⟨.ooe, true, true⟩ ∧
      (∀ n ∈ cliffWorld.glitchDefinitions, n ∉ cliffWorld.definitions) ∧
      (∀ n, ¬ Relation.TransGen cliffWorld.allDefinitions.Refers n n) ∧
      ((Session.start cliffWorld ⟨.ooe, false, false⟩).holding (.ofList [.item 16])).accessible.answer =
        .ok [⟨⟨0, 0, 0⟩, 0⟩] ∧
      ((Session.start cliffWorld ⟨.ooe, true, true⟩).holding (.ofList [.item 16])).accessible.answer =
        .ok [⟨⟨0, 0, 0⟩, 0⟩, ⟨⟨0, 0, 1⟩, 0⟩, ⟨⟨0, 0, 2⟩, 0⟩] ∧
      ∀ key ∈ ([⟨⟨0, 0, 0⟩, 0⟩] : List LocationKey),
        key ∈ ([⟨⟨0, 0, 0⟩, 0⟩, ⟨⟨0, 0, 1⟩, 0⟩, ⟨⟨0, 0, 2⟩, 0⟩] : List LocationKey) := by
  have hrelax : Settings.RelaxesTo ⟨.ooe, false, false⟩ ⟨.ooe, true, true⟩ := ⟨rfl, fun _ => rfl, fun _ => rfl⟩
  have hdisjoint : ∀ n ∈ cliffWorld.glitchDefinitions.keys, n ∉ cliffWorld.definitions := by decide
  have hacyclic : ∀ n, ¬ Relation.TransGen cliffWorld.allDefinitions.Refers n n := fun n =>
    Definitions.acyclic_of_rank (fun k => if k ∈ ["ledge", "gate"] then 1 else 0) (by decide)
      (.atom (.reference n)) n (Definitions.reaches_of_mem (List.mem_singleton_self n))
  refine ⟨hrelax, hdisjoint, hacyclic, rfl, rfl, ?_⟩
  exact accessible_mono_of_relaxed cliffWorld _ _ hrelax hdisjoint hacyclic (.ofList [.item 16]) _ _ rfl rfl

end Progression
