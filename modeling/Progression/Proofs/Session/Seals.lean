import Progression.Proofs.Evaluation.Plain
import Progression.Proofs.Session.Portraits
import Progression.Proofs.Session.Together

/-!
# What the seals ask for

Taking portraits out binds two names anew, each to a requirement for all bosses or all areas that are left. A bound
name that reaches no cycle answers whether its requirement holds under the answers of the names in it
(`checkName_of_bound`), although its own check keeps one memo for all of them and asks no further than the first that
does not hold. So the seal opens where all bosses that are left can be beaten, and the quest of Nest of Evil can be
completed where all areas that are left are cleared (`removePortraits_seals`).
-/

namespace Progression

namespace Session

/-- Whatever is held, if each of these names is answered when it is asked alone, then so is `n`, and it holds if and
only if all of them do. -/
def HoldsWithAll (s : Session) (n : Name) (ns : List Name) : Prop :=
  ∀ held, (∀ k ∈ ns, ∃ b, ((s.holding held).checkName k).answer = .ok b) →
    ∃ b, ((s.holding held).checkName n).answer = .ok b ∧
      (b = true ↔ ∀ k ∈ ns, ((s.holding held).checkName k).answer = .ok true)

/-- The name asks for all of these names and, unless a cycle of references can be reached from there, holds with
them. -/
structure AsksForAll (s : Session) (n : Name) (ns : List Name) : Prop where
  binding : s.definitions.get? n = some (.allOf ns)
  holds : s.definitions.Acyclic (.allOf ns) → s.HoldsWithAll n ns

variable {s : Session} {n : Name} {ns : List Name}

theorem asksForAll_of_allOf (hrule : s.settings.rule? n = none) (hget : s.definitions.get? n = some (.allOf ns))
    (hns : ∀ k ∈ ns, Name.ofText k = k) : s.AsksForAll n ns := by
  refine ⟨hget, fun hacyclic held h => ?_⟩
  -- the answers that the names give one by one are a valuation
  choose! v hv using h
  have hmean : (s.holding held).rulebook.meaning n = .bound (.allOf ns) := by
    rw [Rulebook.meaning_of_binding hrule hget]
    cases ns <;> rfl
  have hn : ((s.holding held).checkName n).answer = .ok ((Requirement.allOf ns).holds held v) := by
    refine checkName_eq_ok.2 (checkName_of_bound hmean hacyclic fun k hk => ?_)
    rw [Requirement.references_allOf, List.map_congr_left hns, List.map_id'] at hk
    exact checkName_eq_ok.1 (hv k hk)
  refine ⟨_, hn, Requirement.holds_allOf.trans (forall₂_congr fun k hk => ?_)⟩
  rw [hns k hk, hv k hk, Except.ok.injEq]

end Session

/-- The game with portraits has no rules. -/
theorem Settings.rule?_of_por {settings : Settings} (h : settings.game = .por) (n : Name) :
    settings.rule? n = none := by
  refine Option.eq_none_iff_forall_ne_some.2 fun rule hrule => ?_
  have happlies := (Settings.rule?_eq_some_iff.1 hrule).2
  rw [h] at happlies
  cases rule
  cases happlies

namespace Portrait

variable {names : List Name}

theorem ofText_boss {p : Portrait} (hp : p ∈ all) : Name.ofText p.boss = p.boss := by
  have hall : ∀ p ∈ all, Name.ofText p.boss = p.boss := by decide
  exact hall p hp

theorem ofText_area {p : Portrait} (hp : p ∈ all) : Name.ofText p.area = p.area := by
  have hall : ∀ p ∈ all, Name.ofText p.area = p.area := by decide
  exact hall p hp

theorem nestOfEvilPercent_left : Session.nestOfEvilPercent (left names) = 111 * (left names).length := by
  have hlength : (left names).length ≤ 8 := List.length_filter_le _ all
  unfold Session.nestOfEvilPercent maxMapPercent mapPercent
  omega

end Portrait

/-- In the game with portraits, and before the tokens are chosen, portraits can be taken out by names of portraits, of
which one at least is not Nest of Evil. The answer is 111 for each portrait that is left. Then the seal asks for all
bosses that are left, and the quest of Nest of Evil for all areas that are left. -/
theorem removePortraits_seals (s : Session) (names : List Name) (hgame : s.settings.game = .por)
    (hchosen : s.chosen = none) (hvalid : ∀ n ∈ names, Portrait.IsName n)
    (hnamed : ∃ n ∈ names, n ≠ Portrait.nestOfEvil) :
    ∃ s', (Session.removePortraits names).on s = (.ok (some (111 * (Portrait.left names).length)), s') ∧
      s'.AsksForAll "four_seal_bosses_killed" ((Portrait.left names).map Portrait.boss) ∧
      s'.AsksForAll "can_complete_nest_of_evil_quest" ((Portrait.left names).map Portrait.area) := by
  obtain ⟨n, hn, -⟩ := hnamed
  have hrun := Session.on_removePortraits_of_ne_nil hgame hchosen hvalid (List.ne_nil_of_mem hn)
  rw [Portrait.nestOfEvilPercent_left] at hrun
  have hall : ∀ p ∈ Portrait.left names, p ∈ Portrait.all := fun p hp => (List.mem_filter.1 hp).1
  refine ⟨s.without names, hrun, Session.asksForAll_of_allOf (Settings.rule?_of_por hgame _) ?_ ?_,
    Session.asksForAll_of_allOf (Settings.rule?_of_por hgame _) ?_ ?_⟩
  · simp [Session.without, Table.get?_set]
  · exact List.forall_mem_map.2 fun p hp => Portrait.ofText_boss (hall p hp)
  · simp [Session.without, Table.get?_set]
  · exact List.forall_mem_map.2 fun p hp => Portrait.ofText_area (hall p hp)

/-- A session in which two bosses can be beaten with one whip, and one of them only from a ladder. -/
def whipSession : Session :=
  .start ⟨∅, .ofList [
    ("bossdullahan", .atom (.reference "whip")),
    ("bossastarte", .ofClauses (.ofNames "whip" ["ladder"]) []),
    ("whip", .atom (.item 1)),
    ("ladder", .atom (.item 2))], ∅, ∅, ∅⟩ ⟨.por, false, false⟩

/-- All portraits but those of the two bosses. -/
def otherPortraits : List Name :=
  (Portrait.all.drop 2).map Portrait.name

/-- The whip alone does not open the seal, the whip and the ladder do. -/
theorem removePortraits_seals_whipSession :
    ∃ s', (Session.removePortraits otherPortraits).on whipSession = (.ok (some 222), s') ∧
      ((s'.holding (.ofList [.item 1])).checkName "four_seal_bosses_killed").answer = .ok false ∧
      ((s'.holding (.ofList [.item 1, .item 2])).checkName "four_seal_bosses_killed").answer = .ok true := by
  obtain ⟨s', hrun, hbosses, -⟩ := removePortraits_seals whipSession otherPortraits rfl rfl (by decide) (by decide)
  obtain rfl : ((Session.removePortraits otherPortraits).on whipSession).2 = s' := congrArg Prod.snd hrun
  have hholds := hbosses.holds (Definitions.acyclic_of_rank
    (fun n => if n = "four_seal_bosses_killed" ∨ n = "can_complete_nest_of_evil_quest" then 2
      else if n = "whip" ∨ n = "ladder" then 0 else 1) (by decide) _)
  refine ⟨_, hrun, ?_, ?_⟩
  · obtain ⟨b, hb, hiff⟩ := hholds (.ofList [.item 1])
      (List.forall_mem_cons.2 ⟨⟨true, rfl⟩, List.forall_mem_singleton.2 ⟨false, rfl⟩⟩)
    have hfalse : b ≠ true := fun h => by cases List.forall_mem_singleton.1 (List.forall_mem_cons.1 (hiff.1 h)).2
    rw [hb, Bool.eq_false_iff.2 hfalse]
  · obtain ⟨b, hb, hiff⟩ := hholds (.ofList [.item 1, .item 2])
      (List.forall_mem_cons.2 ⟨⟨true, rfl⟩, List.forall_mem_singleton.2 ⟨true, rfl⟩⟩)
    rw [hb, hiff.2 (List.forall_mem_cons.2 ⟨rfl, List.forall_mem_singleton.2 rfl⟩)]

end Progression
