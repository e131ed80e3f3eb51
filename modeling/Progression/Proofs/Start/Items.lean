import Progression.Proofs.Draws
import Progression.Proofs.Session.Operations
import Progression.Proofs.Session.Queries
import Progression.Start.Items

/-!
# Progression tokens among the starting pickups

What is drawn from the two ranges is no progression token. In OoE a glyph comes before that (`drawItems_drawn`). It is
chosen from a fixed list, whatever the progression tokens are, and each glyph of the list can be chosen. So a session
starts without progression tokens, whatever the words are, if and only if the game is another one or none of those
glyphs is a progression token (`startingItems_plain_iff`).
-/

namespace Progression

variable {game : Game} {tokens : List Token} {settings : ItemSettings} {d : Draws}

/-! ## What is drawn -/

/-- What can be drawn when a glyph is chosen where one comes first: pickups that are no progression tokens, and in OoE
the glyph before them. -/
inductive Drawn (game : Game) (tokens : List Token) (chosen : Option ItemId) : List ItemId → Prop
  | pickups {ids : List ItemId} (hgame : game ≠ .ooe) (hids : ∀ id ∈ ids, Token.item id ∉ tokens) :
    Drawn game tokens chosen ids
  | glyph {g : ItemId} {rest : List ItemId} (hgame : game = .ooe) (hchosen : chosen = some g)
    (hrest : ∀ id ∈ rest, Token.item id ∉ tokens) : Drawn game tokens chosen (g :: rest)

namespace Drawn

variable {chosen : Option ItemId} {ids : List ItemId}

theorem tail (h : Drawn game tokens chosen ids) : ∀ id ∈ ids.tail, Token.item id ∉ tokens := by
  cases h with
  | pickups _ hids => exact fun id hid => hids id (List.mem_of_mem_tail hid)
  | glyph _ _ hrest => exact hrest

theorem head {g : ItemId} (h : Drawn game tokens chosen ids) (hg : ids.head? = some g) (hmem : Token.item g ∈ tokens) :
    game = .ooe ∧ chosen = some g := by
  cases h with
  | pickups _ hids => exact absurd hmem (hids g (List.mem_of_mem_head? hg))
  | glyph hgame hchosen _ => exact ⟨hgame, hchosen.trans hg⟩

/-- Only the glyph can be a progression token. -/
theorem plain_iff (h : Drawn game tokens chosen ids) :
    (∀ id ∈ ids, Token.item id ∉ tokens) ↔ (game = .ooe → ∀ g, chosen = some g → Token.item g ∉ tokens) := by
  cases h with
  | pickups hgame hids => exact iff_of_true hids fun h => absurd h hgame
  | glyph hgame hchosen hrest =>
    subst hchosen
    constructor
    · intro hplain _ g hg
      cases hg
      exact hplain _ List.mem_cons_self
    · intro hplain
      exact List.forall_mem_cons.2 ⟨hplain hgame _ rfl, hrest⟩

end Drawn

theorem freeGlyphs_ne_nil : freeGlyphs ≠ [] := by
  decide

theorem plain_of_mem_sample {k : Nat} {r : IdRange} {l : List ItemId} {id : ItemId} (hl : l ⊆ plainPickups tokens r)
    (h : id ∈ ((Draws.sample k l).run d).1) : Token.item id ∉ tokens := by
  have hmem : id ∈ plainPickups tokens r := hl (Draws.mem_of_mem_sample h)
  exact of_decide_eq_true (List.mem_filter.1 hmem).2

theorem drawItems_drawn (game : Game) (tokens : List Token) (settings : ItemSettings) (d : Draws) :
    Drawn game tokens ((Draws.choose freeGlyphs).run d).1 ((drawItems game tokens settings).run d).1 := by
  by_cases hgame : game = .ooe
  · -- the glyph is chosen before anything else, so with the words of `d`
    obtain ⟨g, -, hg⟩ := Draws.exists_choose_eq freeGlyphs_ne_nil d
    unfold drawItems
    rw [if_pos hgame, Draws.run_bind, hg]
    refine .glyph hgame rfl fun id hid => ?_
    rcases List.mem_append.1 hid with hitem | hskill
    · exact plain_of_mem_sample (List.Subset.refl _) hitem
    · exact plain_of_mem_sample List.filter_sublist.subset hskill
  · unfold drawItems
    rw [if_neg hgame]
    refine .pickups hgame fun id hid => ?_
    rcases List.mem_append.1 hid with hitem | hskill
    · exact plain_of_mem_sample (List.Subset.refl _) hitem
    · exact plain_of_mem_sample (List.Subset.refl _) hskill

/-! ## Sessions -/

theorem Session.answer_startingItems {s : Session} (h : s.chosen = some tokens) :
    (s.startingItems settings d).answer = .ok ((drawItems s.settings.game tokens settings).run d) := by
  unfold startingItems progressionTokens
  rw [h, pure_bind, Query.answer_bind, Query.answer_forIn_tell]
  rfl

/-- The starting pickups of a session with progression tokens can always be chosen, and what comes after the first one
is no progression token. If the first one is, then it is a glyph, in OoE. So none of them ever is if and only if the
game is not OoE or no glyph of the list is a progression token. -/
theorem startingItems_plain_iff (s : Session) (tokens : List Token) (settings : ItemSettings)
    (h : s.chosen = some tokens) :
    (∀ d, ∃ ids d', (s.startingItems settings d).answer = .ok (ids, d') ∧ (∀ id ∈ ids.tail, Token.item id ∉ tokens) ∧
      ∀ g ∈ ids.head?, Token.item g ∈ tokens → s.settings.game = .ooe ∧ g ∈ freeGlyphs) ∧
    ((∀ d ids d', (s.startingItems settings d).answer = .ok (ids, d') → ∀ id ∈ ids, Token.item id ∉ tokens) ↔
      (s.settings.game = .ooe → ∀ g ∈ freeGlyphs, Token.item g ∉ tokens)) := by
  have hdrawn := drawItems_drawn s.settings.game tokens settings
  constructor
  · intro d
    refine ⟨_, _, Session.answer_startingItems h, (hdrawn d).tail, fun g hg hmem => ?_⟩
    obtain ⟨hgame, hchosen⟩ := (hdrawn d).head hg hmem
    exact ⟨hgame, Draws.mem_of_choose_eq hchosen⟩
  constructor
  · intro hplain hgame g hg
    -- some words give this glyph
    obtain ⟨d, hd⟩ := Draws.exists_draws_choose_eq hg (by decide)
    have hids := hplain d _ _ (Session.answer_startingItems h)
    exact (hdrawn d).plain_iff.1 hids hgame g hd
  · intro hglyphs d ids d' hanswer
    rw [Session.answer_startingItems h] at hanswer
    obtain rfl := congrArg Prod.fst (Except.ok.inj hanswer)
    exact (hdrawn d).plain_iff.2 fun hgame g hg => hglyphs hgame g (Draws.mem_of_choose_eq hg)

/-- A session of OoE in which one pickup is the only progression token. -/
def crypt (id : ItemId) : Session :=
  (Session.start
    { flags := ∅
      definitions := .ofList [("relic", .atom (.item id))]
      glitchDefinitions := ∅
      preferences := ∅
      places := ∅ } ⟨.ooe, false, false⟩).after .chooseTokens

/-- A progression token of the range of items is passed over. -/
theorem startingItems_plain_iff_crypt :
    (crypt 1).chosen = some [.item 1] ∧
      ∀ d ids d', ((crypt 1).startingItems ⟨⟨0, 4⟩, ⟨40, 44⟩⟩ d).answer = .ok (ids, d') →
        ∀ id ∈ ids, Token.item id ∉ [Token.item 1] := by
  have hchosen : (crypt 1).chosen = some [.item 1] := rfl
  have hglyph : (1 : ItemId) ∉ freeGlyphs := by decide
  obtain ⟨-, hplain⟩ := startingItems_plain_iff (crypt 1) [.item 1] ⟨⟨0, 4⟩, ⟨40, 44⟩⟩ hchosen
  refine ⟨hchosen, hplain.2 fun _ g hg hmem => hglyph ?_⟩
  obtain rfl := Token.item.inj (List.mem_singleton.1 hmem)
  exact hg

/-- A glyph that is a progression token is not passed over. -/
theorem startingItems_not_plain :
    ¬ ∀ (s : Session) (tokens : List Token) (settings : ItemSettings) (d d' : Draws) (ids : List ItemId),
      s.chosen = some tokens → (s.startingItems settings d).answer = .ok (ids, d') →
        ∀ id ∈ ids, Token.item id ∉ tokens := by
  intro h
  have hanswer : ((crypt 0x1F).startingItems ⟨⟨0, 0⟩, ⟨0, 0⟩⟩ ⟨[330382100], 0⟩).answer = .ok ([0x1F], ⟨[], 1⟩) := rfl
  exact h (crypt 0x1F) [.item 0x1F] ⟨⟨0, 0⟩, ⟨0, 0⟩⟩ _ _ _ rfl hanswer 0x1F (by decide) (by decide)

end Progression
