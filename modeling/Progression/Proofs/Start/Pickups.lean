import Progression.Proofs.Start.Items

/-!
# How many starting pickups there are

From each of the two ranges as many distinct pickups are drawn as are wanted, or all that are no progression tokens if
there are fewer, whatever the words are (`drawItems_startingPickups`). In OoE a glyph comes first and is then left out
of the skills. So no pickup is there twice where the ranges have nothing in common and, in OoE, no glyph is an item
(`startingItems_shape`).
-/

namespace Progression

/-! ## Ranges -/

namespace IdRange

instance : Membership ItemId IdRange := ⟨fun r id => r.start ≤ id ∧ id < r.stop⟩

theorem mem_iff {r : IdRange} {id : ItemId} : id ∈ r ↔ r.start.toNat ≤ id.toNat ∧ id.toNat < r.stop.toNat :=
  and_congr UInt32.le_iff_toNat_le UInt32.lt_iff_toNat_lt

theorem toNat_start_add {r : IdRange} {i : Nat} (hi : i < r.stop.toNat - r.start.toNat) :
    (r.start.toNat + i).toUInt32.toNat = r.start.toNat + i := by
  have hstop := r.stop.toNat_lt
  exact UInt32.toNat_ofNat_of_lt' (show r.start.toNat + i < 2 ^ 32 by omega)

theorem mem_toList {r : IdRange} {id : ItemId} : id ∈ r.toList ↔ id ∈ r := by
  rw [mem_iff, toList, List.mem_map]
  constructor
  · rintro ⟨i, hi, rfl⟩
    rw [List.mem_range] at hi
    rw [toNat_start_add hi]
    omega
  · rintro ⟨hstart, hstop⟩
    have hi : id.toNat - r.start.toNat < r.stop.toNat - r.start.toNat := by omega
    refine ⟨id.toNat - r.start.toNat, List.mem_range.2 hi, UInt32.toNat.inj ?_⟩
    rw [toNat_start_add hi]
    omega

theorem nodup_toList (r : IdRange) : r.toList.Nodup := by
  refine List.Nodup.map_on (fun i hi j hj h => ?_) List.nodup_range
  rw [List.mem_range] at hi hj
  have htoNat := congrArg UInt32.toNat h
  rw [toNat_start_add hi, toNat_start_add hj] at htoNat
  omega

end IdRange

variable {game : Game} {tokens : List Token} {settings : ItemSettings}

/-- The pickups of a range that are no progression tokens. -/
def plainSet (tokens : List Token) (r : IdRange) : Set ItemId := {id | id ∈ r ∧ Token.item id ∉ tokens}

theorem mem_plainPickups {r : IdRange} {id : ItemId} : id ∈ plainPickups tokens r ↔ id ∈ plainSet tokens r := by
  unfold plainPickups
  rw [List.mem_filter, IdRange.mem_toList, decide_eq_true_eq]
  exact Iff.rfl

theorem nodup_plainPickups (tokens : List Token) (r : IdRange) : (plainPickups tokens r).Nodup :=
  r.nodup_toList.filter _

/-! ## What is drawn -/

/-- Three items and three skills, or in OoE a free glyph, three items and two other skills; fewer only where there are
no more. -/
inductive StartingPickups (game : Game) (tokens : List Token) (settings : ItemSettings) : List ItemId → Prop
  | glyph {g : ItemId} {items skills : List ItemId} (hgame : game = .ooe) (hg : g ∈ freeGlyphs)
    (hitems : Draws.Sampled 3 (plainSet tokens settings.items) items)
    (hskills : Draws.Sampled 2 (plainSet tokens settings.skills \ {g}) skills) :
    StartingPickups game tokens settings (g :: items ++ skills)
  | noGlyph {items skills : List ItemId} (hgame : game ≠ .ooe)
    (hitems : Draws.Sampled 3 (plainSet tokens settings.items) items)
    (hskills : Draws.Sampled 3 (plainSet tokens settings.skills) skills) :
    StartingPickups game tokens settings (items ++ skills)

theorem sampled_plainPickups (tokens : List Token) (r : IdRange) (k : Nat) (d : Draws) :
    Draws.Sampled k (plainSet tokens r) ((Draws.sample k (plainPickups tokens r)).run d).1 :=
  Draws.sampled_sample (nodup_plainPickups tokens r) (fun _ => mem_plainPickups) k d

theorem sampled_plainPickups_ne (tokens : List Token) (r : IdRange) (g : ItemId) (k : Nat) (d : Draws) :
    Draws.Sampled k (plainSet tokens r \ {g})
      ((Draws.sample k ((plainPickups tokens r).filter (· ≠ g))).run d).1 := by
  refine Draws.sampled_sample ((nodup_plainPickups tokens r).filter _) (fun id => ?_) k d
  rw [List.mem_filter, mem_plainPickups, decide_eq_true_eq]
  exact Iff.rfl

theorem drawItems_startingPickups (game : Game) (tokens : List Token) (settings : ItemSettings) (d : Draws) :
    StartingPickups game tokens settings ((drawItems game tokens settings).run d).1 := by
  by_cases hgame : game = .ooe
  · obtain ⟨g, hg, hchoose⟩ := Draws.exists_choose_eq freeGlyphs_ne_nil d
    unfold drawItems
    rw [if_pos hgame, Draws.run_bind, hchoose]
    exact .glyph hgame hg (sampled_plainPickups ..) (sampled_plainPickups_ne ..)
  · unfold drawItems
    rw [if_neg hgame]
    exact .noGlyph hgame (sampled_plainPickups ..) (sampled_plainPickups ..)

/-- Samples from two ranges without a common pickup have no common pickup. -/
theorem nodup_items_append_skills {items skills : List ItemId} {j k : Nat} {pool : Set ItemId}
    (hdisjoint : ∀ id ∈ settings.items, id ∉ settings.skills)
    (hitems : Draws.Sampled j (plainSet tokens settings.items) items) (hskills : Draws.Sampled k pool skills)
    (hpool : pool ⊆ plainSet tokens settings.skills) : (items ++ skills).Nodup := by
  refine List.nodup_append.2 ⟨hitems.nodup, hskills.nodup, fun a ha b hb hab => ?_⟩
  subst hab
  exact hdisjoint a (hitems.mem a ha).1 (hpool (hskills.mem a hb)).1

theorem StartingPickups.nodup {ids : List ItemId} (h : StartingPickups game tokens settings ids)
    (hdisjoint : ∀ id ∈ settings.items, id ∉ settings.skills)
    (hglyphs : game = .ooe → ∀ g ∈ freeGlyphs, g ∉ settings.items) : ids.Nodup := by
  cases h with
  | @glyph g items skills hgame hg hitems hskills =>
    refine List.nodup_cons.2 ⟨fun hmem => ?_, ?_⟩
    · rcases List.mem_append.1 hmem with hitem | hskill
      · exact hglyphs hgame g hg (hitems.mem g hitem).1
      · exact (hskills.mem g hskill).2 rfl
    · exact nodup_items_append_skills hdisjoint hitems hskills Set.sdiff_subset
  | noGlyph hgame hitems hskills =>
    exact nodup_items_append_skills hdisjoint hitems hskills (Set.Subset.refl _)

/-! ## Sessions -/

/-- The starting pickups of a session with progression tokens can always be chosen: from each range so many distinct
pickups that are no progression tokens, or all of them, and in OoE a free glyph before them which is not among the
skills. If the ranges have nothing in common and, in OoE, no free glyph is in the range of the items, then no pickup is
chosen twice. -/
theorem startingItems_shape (s : Session) (tokens : List Token) (settings : ItemSettings) (d : Draws)
    (h : s.chosen = some tokens) :
    ∃ ids d', (s.startingItems settings d).answer = .ok (ids, d') ∧
      StartingPickups s.settings.game tokens settings ids ∧
      ((∀ id ∈ settings.items, id ∉ settings.skills) →
        (s.settings.game = .ooe → ∀ g ∈ freeGlyphs, g ∉ settings.items) → ids.Nodup) := by
  have hpickups := drawItems_startingPickups s.settings.game tokens settings d
  exact ⟨_, _, Session.answer_startingItems h, hpickups, hpickups.nodup⟩

/-- A glyph that is in the range of the skills is given once, so only one skill is left. -/
theorem startingItems_shape_crypt :
    (crypt 1).chosen = some [.item 1] ∧
      ((crypt 1).startingItems ⟨⟨0, 6⟩, ⟨0x1D, 0x1F⟩⟩ ⟨[], 0⟩).answer = .ok ([0x1D, 4, 5, 0, 0x1E], ⟨[], 5⟩) ∧
      StartingPickups .ooe [.item 1] ⟨⟨0, 6⟩, ⟨0x1D, 0x1F⟩⟩ [0x1D, 4, 5, 0, 0x1E] ∧
      [(0x1D : ItemId), 4, 5, 0, 0x1E].Nodup := by
  have hchosen : (crypt 1).chosen = some [.item 1] := rfl
  have hanswer : ((crypt 1).startingItems ⟨⟨0, 6⟩, ⟨0x1D, 0x1F⟩⟩ ⟨[], 0⟩).answer =
      .ok ([0x1D, 4, 5, 0, 0x1E], ⟨[], 5⟩) := rfl
  obtain ⟨ids, d', hids, hpickups, hnodup⟩ :=
    startingItems_shape (crypt 1) [.item 1] ⟨⟨0, 6⟩, ⟨0x1D, 0x1F⟩⟩ ⟨[], 0⟩ hchosen
  cases hids.symm.trans hanswer
  have hglyphs : ∀ g ∈ freeGlyphs, 6 ≤ g.toNat := by simp [freeGlyphs]
  refine ⟨hchosen, hanswer, hpickups, hnodup (fun id hitem hskill => ?_) fun _ g hg hitem => ?_⟩
  · obtain ⟨-, hlt⟩ := IdRange.mem_iff.1 hitem
    obtain ⟨hle, -⟩ := IdRange.mem_iff.1 hskill
    exact absurd (Nat.lt_of_le_of_lt hle hlt) (by decide)
  · exact absurd (IdRange.mem_iff.1 hitem).2 (Nat.not_lt.2 (hglyphs g hg))

end Progression
