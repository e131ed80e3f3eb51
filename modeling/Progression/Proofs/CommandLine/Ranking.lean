import Mathlib.Data.List.Permutation
import Progression.Proofs.CommandLine.Playing
import Progression.Proofs.Session.Ranking
import Progression.Proofs.World.Atlas

/-!
# The order of a ranking

What a ranking finds is a table, and the entries of a table may be read in any order. Entries go by their counts, the
greatest first, and entries with one count by their tokens: pickups by number, then flags by name (`Token.Precedes`).
No two entries have one token, so of two entries one stands above the other (`Report.StandsAbove`), and there is one
way to sort them, from whatever order (`Report.eq_order`). The sorting compares tokens, not their texts, which may be
equal. So a run that ranks reports each progression token that is not held once, with its count, in a list that depends
on the table alone (`ranking_of_run`).
-/

namespace Progression

/-! ## The order of tokens -/

/-- Pickups come by number, before flags, and these by name. -/
inductive Token.Precedes : Token → Token → Prop
  | items {a b : ItemId} (h : a < b) : Precedes (.item a) (.item b)
  | itemFlag (a : ItemId) (n : Name) : Precedes (.item a) (.flag n)
  | flags {m n : String} (h : m < n) : Precedes (.flag m) (.flag n)

theorem Name.charsBefore_iff {s t : List Char} : charsBefore s t ↔ s < t := by
  induction s generalizing t with
  | nil => cases t <;> simp [charsBefore]
  | cons c s ih =>
    cases t with
    | nil => simp [charsBefore]
    | cons d t =>
      have hcd : c.toNat < d.toNat ↔ c < d := Iff.rfl
      simp [charsBefore, List.cons_lt_cons_iff, ih, hcd]

theorem Token.before_iff {a b : Token} : a.before b ↔ a.Precedes b := by
  cases a with
  | item a =>
    cases b with
    | item b =>
      exact (decide_eq_true_iff.trans UInt32.lt_iff_toNat_lt.symm).trans ⟨.items, fun | .items h => h⟩
    | flag n => exact ⟨fun _ => .itemFlag a n, fun _ => rfl⟩
  | flag m =>
    cases b with
    | item b => exact ⟨nofun, nofun⟩
    | flag n =>
      exact Name.charsBefore_iff.trans ⟨.flags, fun | .flags h => h⟩

/-- Of two tokens the second one does not come first if the first one does, or if they are one. -/
theorem Token.not_before_iff {a b : Token} : b.before a = false ↔ a.before b ∨ a = b := by
  constructor
  · intro h
    cases hab : a.before b with
    | true => exact .inl rfl
    | false => exact .inr (eq_of_not_before hab h)
  · rintro (h | rfl)
    · exact Bool.eq_false_iff.2 fun hba => not_before_self a (before_trans h hba)
    · exact before_irrefl a

namespace Report

/-! ## The order of entries -/

/-- An entry stands above another one if it counts more, or as much and its token comes first. -/
def StandsAbove (a b : Token × Nat) : Prop := b.2 < a.2 ∨ a.2 = b.2 ∧ a.1.Precedes b.1

variable {a b c : Token × Nat}

theorem ranksBefore_iff : ranksBefore a b ↔ StandsAbove a b ∨ a = b := by
  unfold ranksBefore StandsAbove
  rw [Bool.or_eq_true, Bool.and_eq_true, decide_eq_true_eq, decide_eq_true_eq, Bool.not_eq_true', Token.not_before_iff,
    Token.before_iff, Prod.ext_iff, and_or_left, or_assoc, and_comm (a := a.1 = b.1)]

theorem StandsAbove.asymm (h : StandsAbove a b) : ¬ StandsAbove b a := by
  rintro (h' | ⟨heq', h'⟩)
  · rcases h with h | ⟨heq, h⟩ <;> omega
  · rcases h with h | ⟨-, h⟩
    · omega
    · exact Token.not_before_self _ (Token.before_trans (Token.before_iff.2 h) (Token.before_iff.2 h'))

theorem ranksBefore_antisymm (hab : ranksBefore a b) (hba : ranksBefore b a) : a = b := by
  rcases ranksBefore_iff.1 hab with hab | heq
  · rcases ranksBefore_iff.1 hba with hba | heq
    · exact absurd hba hab.asymm
    · exact heq.symm
  · exact heq

theorem ranksBefore_trans (hab : ranksBefore a b) (hbc : ranksBefore b c) : ranksBefore a c := by
  rcases ranksBefore_iff.1 hab with hab' | rfl
  · rcases ranksBefore_iff.1 hbc with hbc' | rfl
    · refine ranksBefore_iff.2 (.inl ?_)
      rcases hab' with hab' | ⟨heq, hab'⟩ <;> rcases hbc' with hbc' | ⟨heq', hbc'⟩
      · exact .inl (Nat.lt_trans hbc' hab')
      · exact .inl (heq' ▸ hab')
      · exact .inl (heq ▸ hbc')
      · exact .inr ⟨heq.trans heq', Token.before_iff.1 (Token.before_trans (Token.before_iff.2 hab')
          (Token.before_iff.2 hbc'))⟩
    · exact hab
  · exact hbc

theorem ranksBefore_total (a b : Token × Nat) : ranksBefore a b || ranksBefore b a := by
  rw [Bool.or_eq_true, ranksBefore_iff, ranksBefore_iff]
  rcases Nat.lt_trichotomy a.2 b.2 with h | h | h
  · exact .inr (.inl (.inl h))
  · cases hba : b.1.before a.1 with
    | true => exact .inr (.inl (.inr ⟨h.symm, Token.before_iff.1 hba⟩))
    | false =>
      rcases Token.not_before_iff.1 hba with hab | heq
      · exact .inl (.inl (.inr ⟨h, Token.before_iff.1 hab⟩))
      · exact .inl (.inr (Prod.ext heq h))
  · exact .inl (.inl (.inl h))

/-! ## Sorting a table -/

theorem pairwise_mergeSort (es : List (Token × Nat)) :
    (es.mergeSort ranksBefore).Pairwise fun a b => ranksBefore a b :=
  @List.pairwise_mergeSort _ ranksBefore (fun _ _ _ => ranksBefore_trans) ranksBefore_total es

/-- Sorting does not depend on the order in which the entries are read. -/
theorem eq_order {m : Table Token Nat} {es : List (Token × Nat)} (h : es.Perm m.entries) :
    es.mergeSort ranksBefore = order m :=
  List.Perm.eq_of_pairwise (fun _ _ _ _ => ranksBefore_antisymm) (pairwise_mergeSort es) (pairwise_mergeSort m.entries)
    ((List.mergeSort_perm es _).trans (h.trans (List.mergeSort_perm m.entries _).symm))

theorem perm_order (m : Table Token Nat) : (order m).Perm m.entries := List.mergeSort_perm m.entries ranksBefore

theorem nodup_keys_order (m : Table Token Nat) : ((order m).map Prod.fst).Nodup :=
  ((perm_order m).map Prod.fst).nodup_iff.2 m.nodup

/-- Every entry of a sorted table stands above those that come after it. -/
theorem pairwise_order (m : Table Token Nat) : (order m).Pairwise StandsAbove := by
  refine (pairwise_mergeSort m.entries).imp₂ (fun a b hab hne => ?_) (List.pairwise_map.1 (nodup_keys_order m))
  exact (ranksBefore_iff.1 hab).resolve_right fun heq => hne (congrArg Prod.fst heq)

end Report

/-- A ranking binds just the progression tokens that are not held. -/
theorem Session.mem_of_rank {s : Session} {ignored : Tag} {tokens : List Token} {m : Table Token Nat}
    (h : s.chosen = some tokens) (hm : ((rank ignored).on s).1 = .ok m) (t : Token) :
    t ∈ m ↔ t ∈ tokens ∧ t ∉ s.inventory := by
  rw [rank_eq ignored h] at hm
  obtain ⟨baseline, -, hm⟩ := bind_eq_ok.1 hm
  have hcandidate : t ∈ tokens.filter (· ∉ s.inventory) ↔ t ∈ tokens ∧ t ∉ s.inventory := by
    rw [List.mem_filter, decide_eq_true_eq]
  rw [← hcandidate, Table.mem_iff_get?]
  constructor
  · rintro ⟨n, hn⟩
    exact ((get?_eq_some_of_foldlM_set hm).1 hn).1
  · intro ht
    obtain ⟨n, hn⟩ := (get?_of_foldlM_set hm).1 t ht
    exact ⟨n, (get?_eq_some_of_foldlM_set hm).2 ⟨ht, hn⟩⟩

/-- A ranking that lists the tokens that are not held, once each with the count that was found for it, and every entry
above those that come after it. -/
structure Report.Ranks (m : Table Token Nat) (tokens held : List Token) (ranking : List (Token × Nat)) : Prop where
  keys : ∀ t, t ∈ ranking.map Prod.fst ↔ t ∈ tokens ∧ t ∉ held
  nodup : (ranking.map Prod.fst).Nodup
  count : ∀ e ∈ ranking, m.get? e.1 = some e.2
  order : ranking.Pairwise Report.StandsAbove

open CommandLine in
/-- A run that ranks reports the ranking of the progression tokens of the session that is made ready, but for those that
are held at the start. It is the list that sorting gives from whatever order the entries are read in. -/
theorem ranking_of_run (args : Arguments) (view : String → FileView) (r : Report) (hrank : args.rank = true)
    (h : (run args view).answer = .ok r) :
    ∃ s t tokens held m, sessionOf args view = .ok s ∧ Played args s t r ∧ t.chosen = some tokens ∧
      startingTokens args = .ok held ∧ ((Session.rank .noProgression).on t).1 = .ok m ∧
      Report.Ranks m tokens held r.ranking ∧
      ∀ es : List (Token × Nat), es.Perm m.entries → es.mergeSort Report.ranksBefore = r.ranking := by
  obtain ⟨s, t, hs, hplayed⟩ := run_eq_ok.1 h
  obtain ⟨u, held, -, -, hheld, rfl⟩ := hplayed.prepares
  have hranking := hplayed.ranking
  rw [if_pos hrank] at hranking
  obtain ⟨m, hm, hr⟩ := hranking
  have hperm := Report.perm_order m
  refine ⟨s, _, _, held, m, hs, hplayed, rfl, hheld, hm, ?_, fun es hes => ?_⟩
  · rw [hr]
    refine ⟨fun t => ?_, Report.nodup_keys_order m, fun e he => ?_, Report.pairwise_order m⟩
    · rw [(hperm.map Prod.fst).mem_iff]
      exact (Session.mem_of_rank rfl hm t).trans (and_congr_right' (not_congr Inventory.mem_ofList))
    · exact Table.get?_eq_some_iff.2 (hperm.mem_iff.1 he)
  · rw [hr]
    exact Report.eq_order hes

namespace CommandLine

/-- A run that ranks, with a villager whose name reads like a pickup. -/
def villagerRun : Arguments where
  requirements := "rules.json"
  settings := none
  game := some "ooe"
  villagers := "005"
  portraits := ""
  glitches := false
  openWorld := false
  items := ""
  flags := ""
  removePortraits := ""
  rank := true
  output := some "report.json"

/-- Two pickups, one of which opens a location. -/
def villagerText : String :=
  "\x7b\"Defs\": \x7b\"beat game\": true, \"lamp\": 5, \"key\": 3\x7d, " ++
    "\"Rooms\": \x7b\"01-02-03\": \x7b\"0\": \"key\"\x7d\x7d\x7d"

def villagerRules : Document :=
  .object [("Defs", .object [
      ("beat game", .bool true), ("lamp", .number ⟨false, 5, 0⟩), ("key", .number ⟨false, 3, 0⟩)]),
    ("Rooms", .object [("01-02-03", .object [("0", .text "key")])])]

def villagerSession : Session :=
  .start ⟨.ofTexts ["005"] [],
    .ofList [("beat_game", .atom (.literal true)), ("lamp", .atom (.item 5)), ("key", .atom (.item 3))], ∅, ∅,
    .ofList [(⟨⟨1, 2, 3⟩, 0⟩, ⟨.free, .ofClauses (.ofNames "key" []) [], []⟩)]⟩ ⟨.ooe, false, false⟩

theorem ofDocument_villagerRules :
    World.ofDocument (.ofTexts ["005"] []) villagerRules = .ok villagerSession.world := by
  have hentries : (tabulateRooms (.ofTexts ["005"] []) (villagerRules.part .rooms)).map Table.entries =
      .ok villagerSession.world.places.entries := by decide +kernel
  obtain ⟨⟨_, _⟩, hplaces, rfl⟩ := map_eq_ok.1 hentries
  exact ofDocument_eq_ok.2 ⟨rfl, rfl, rfl, rfl, hplaces⟩

theorem sessionOf_villagerRun : sessionOf villagerRun (fun _ => .text villagerText) = .ok villagerSession :=
  have hd : Document.ofText villagerText = .ok villagerRules := by cbv
  sessionOf_of_text rfl hd rfl ofDocument_villagerRules

theorem order_villagers : Report.order (.ofList [(.item 5, 0), (.item 3, 1), (.flag "005", 0)]) =
    [(.item 3, 1), (.item 5, 0), (.flag "005", 0)] := by
  rw [← Report.eq_order (by decide : List.Perm [(.item 3, 1), (.item 5, 0), (.flag "005", 0)] _)]
  exact List.mergeSort_of_pairwise (by decide)

end CommandLine

open CommandLine in
/-- The pickup that opens the location comes first, and then the other one, before the villager who reads like it,
however the entries are read. -/
theorem ranking_of_run_villagerRun :
    (Token.item 5).display = (Token.flag "005").display ∧
      ∃ r, (run villagerRun fun _ => .text villagerText).answer = .ok r ∧
        r.ranking = [(.item 3, 1), (.item 5, 0), (.flag "005", 0)] ∧
        [(.flag "005", 0), (.item 3, 1), (.item 5, 0)].mergeSort Report.ranksBefore = r.ranking := by
  have hplayed : Played villagerRun villagerSession (equipped villagerSession [])
      ⟨true, [], [(.item 3, 1), (.item 5, 0), (.flag "005", 0)], none, []⟩ :=
    ⟨⟨villagerSession, [], rfl, rfl, rfl, rfl⟩, rfl, rfl, ⟨_, rfl, order_villagers.symm⟩, rfl⟩
  have hrun := run_eq_ok.2 ⟨_, _, sessionOf_villagerRun, hplayed⟩
  obtain ⟨-, -, -, -, m, -, -, -, -, -, -, hsort⟩ := ranking_of_run _ _ _ rfl hrun
  have hperm : m.entries.Perm _ := hsort m.entries (.refl _) ▸ (List.mergeSort_perm m.entries _).symm
  exact ⟨by decide, _, hrun, rfl, hsort _ (.trans (by decide) hperm.symm)⟩

end Progression
