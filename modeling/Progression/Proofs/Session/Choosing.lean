import Mathlib.Data.List.Nodup
import Mathlib.Data.Set.List
import Progression.Proofs.FirstOccurrence
import Progression.Proofs.Session.Operations

/-!
# Choosing the progression tokens

The progression tokens are chosen once in the life of a session, and stay. An operation can do three things to them:
nothing, choose them while there are none, or take portraits out while there are none (`after_step`). So over a whole
run they are chosen at most once, what is chosen then is there ever after, and portraits are taken out only before
(`tokens_of_run`).
-/

namespace Progression

namespace Session

/-! ## What is chosen -/

/-- The progression tokens are the pickups that names are bound to, in the order in which they are first bound, and then
the flags of the game that is played. -/
def Lists (s : Session) (tokens : List Token) : Prop :=
  ∃ items : List ItemId, ∃ flags : List Name, tokens = items.map .item ++ flags.map .flag ∧
    (∀ id, id ∈ items ↔ ∃ n, s.definitions.get? n = some (.atom (.item id))) ∧
    items.Pairwise (fun a b => s.definitions.values.idxOf (.atom (.item a)) <
      s.definitions.values.idxOf (.atom (.item b))) ∧
    flags = match s.settings.game with
      | .ooe => s.world.flags.villagers.toList
      | .por => s.world.flags.portraits.toList.filter (· ∉ s.removedPortraits)
      | .dos => []

variable {s : Session}

theorem mem_boundItems {t : Token} :
    t ∈ s.boundItems ↔ ∃ id, t = .item id ∧ ∃ n, s.definitions.get? n = some (.atom (.item id)) := by
  unfold boundItems
  rw [List.mem_eraseDups, List.mem_filterMap]
  constructor
  · rintro ⟨r, hr, ht⟩
    rcases r with _ | (id | _ | _ | _) | _ <;> cases ht
    exact ⟨id, rfl, Table.mem_values.1 hr⟩
  · rintro ⟨id, rfl, hr⟩
    exact ⟨.atom (.item id), Table.mem_values.2 hr, rfl⟩

/-- The atom that asks for a token. -/
def binding : Token → Requirement
  | .item id => .atom (.item id)
  | .flag name => .atom (.flag name)

theorem pairwise_boundItems (s : Session) : s.boundItems.Pairwise fun t u =>
    s.definitions.values.idxOf (binding t) < s.definitions.values.idxOf (binding u) := by
  refine pairwise_eraseDups_filterMap (fun r t ht => ?_) s.definitions.values
  rcases r with _ | (_ | _ | _ | _) | _ <;> cases ht
  rfl

theorem lists_boundItems_append (s : Session) : s.Lists (s.boundItems ++ s.progressionFlags) := by
  obtain ⟨items, hitems⟩ : ∃ items : List ItemId, items.map Token.item = s.boundItems := by
    have hrange : s.boundItems ∈ {l : List Token | ∀ t ∈ l, t ∈ Set.range Token.item} := fun t ht => by
      obtain ⟨id, rfl, -⟩ := mem_boundItems.1 ht
      exact ⟨id, rfl⟩
    rwa [← Set.range_list_map] at hrange
  refine ⟨items, _, ?_, fun id => ?_, ?_, rfl⟩
  · rw [hitems]
    unfold progressionFlags
    cases s.settings.game <;> rfl
  · have hmem : id ∈ items ↔ Token.item id ∈ s.boundItems := by simp [← hitems]
    rw [hmem, mem_boundItems]
    constructor
    · rintro ⟨id', hid, h⟩
      cases hid
      exact h
    · exact fun h => ⟨id, rfl, h⟩
  · have horder := pairwise_boundItems s
    rwa [← hitems, List.pairwise_map] at horder

/-- No token is listed twice, and no portrait that is out of the game is listed. -/
theorem Lists.nodup {tokens : List Token} (h : s.Lists tokens) : tokens.Nodup := by
  obtain ⟨items, flags, rfl, -, horder, hflags⟩ := h
  have hflags : flags.Nodup := by
    rw [hflags]
    cases s.settings.game with
    | ooe => exact s.world.flags.villagers.nodup
    | por => exact s.world.flags.portraits.nodup.filter _
    | dos => exact List.nodup_nil
  refine List.nodup_append.2 ⟨?_, ?_, ?_⟩
  · have hitems : items.Nodup := nodup_of_pairwise_idxOf (g := fun id => Requirement.atom (.item id)) horder
    exact hitems.map fun _ _ h => Token.item.inj h
  · exact hflags.map fun _ _ h => Token.flag.inj h
  · intro t ht u hu
    obtain ⟨id, -, rfl⟩ := List.mem_map.1 ht
    obtain ⟨n, -, rfl⟩ := List.mem_map.1 hu
    exact Token.noConfusion

theorem Lists.flag_not_mem {tokens : List Token} (h : s.Lists tokens)
    (hgame : s.removedPortraits ≠ [] → s.settings.game = .por) {n : Name} (hn : n ∈ s.removedPortraits) :
    .flag n ∉ tokens := by
  obtain ⟨items, flags, rfl, -, -, hflags⟩ := h
  rw [hgame (List.ne_nil_of_mem hn)] at hflags
  intro hmem
  rcases List.mem_append.1 hmem with hmem | hmem
  · obtain ⟨id, -, h⟩ := List.mem_map.1 hmem
    cases h
  · obtain ⟨k, hk, h⟩ := List.mem_map.1 hmem
    cases h
    rw [hflags] at hk
    exact of_decide_eq_true (List.mem_filter.1 hk).2 hn

/-! ## One operation -/

/-- Two sessions on the same world that differ neither in what is played nor in tokens or portraits. -/
structure SameChoice (s s' : Session) : Prop where
  world : s'.world = s.world
  settings : s'.settings = s.settings
  chosen : s'.chosen = s.chosen
  removedPortraits : s'.removedPortraits = s.removedPortraits

/-- What an operation can do to the tokens and the portraits: one case for each way that goes. -/
inductive ChoiceStep (s : Session) : Operation → Session → Prop
  | same {op : Operation} {s' : Session} (h : s.SameChoice s') : ChoiceStep s op s'
  | chosen (hchosen : s.chosen = none) :
    ChoiceStep s .chooseTokens { s with chosen := some (s.boundItems ++ s.progressionFlags) }
  | removed {names removed : List Name} {definitions : Definitions} (hgame : s.settings.game = .por)
    (hchosen : s.chosen = none) (hnest : Portrait.nestOfEvil ∉ removed) :
    ChoiceStep s (.removePortraits names) { s with removedPortraits := removed, definitions := definitions }

theorem SameChoice.refl (s : Session) : s.SameChoice s := ⟨rfl, rfl, rfl, rfl⟩

/-- What is taken out is what is named, but for Nest of Evil. -/
theorem eq_of_removablePortraits_eq_ok {names removed : List Name} (h : removablePortraits names = .ok removed) :
    removed = names.filter (· ≠ Portrait.nestOfEvil) := by
  unfold removablePortraits at h
  generalize names.filter (· ≠ Portrait.nestOfEvil) = ns at h ⊢
  induction ns generalizing removed with
  | nil => exact (Except.ok.inj h).symm
  | cons n ns ih =>
    rw [List.mapM_cons] at h
    obtain ⟨k, hk, hrest⟩ := bind_eq_ok.1 h
    obtain ⟨ks, hks, hcons⟩ := bind_eq_ok.1 hrest
    obtain rfl : k = n := by
      cases hnamed : Portrait.named? n with
      | some p => rw [hnamed] at hk; exact (Except.ok.inj hk).symm
      | none => rw [hnamed] at hk; cases hk
    rw [← ih hks]
    exact (Except.ok.inj hcons).symm

theorem nestOfEvil_not_mem {names removed : List Name} (h : removablePortraits names = .ok removed) :
    Portrait.nestOfEvil ∉ removed := by
  rw [eq_of_removablePortraits_eq_ok h]
  simp

theorem after_step (s : Session) (op : Operation) : s.ChoiceStep op (s.after op) := by
  cases op with
  | removePortraits names =>
    have hstep := removePortraits_step names s
    show s.ChoiceStep _ ((removePortraits names).on s).2
    generalize (removePortraits names).on s = p at hstep ⊢
    cases hstep with
    | otherGame hgame => exact .same (.refl s)
    | late hgame hchosen => exact .same (.refl s)
    | unknown hgame hchosen hremoved => exact .same (.refl s)
    | none hgame hchosen hnames => exact .removed hgame hchosen List.not_mem_nil
    | some hgame hchosen hnames hremoved hleft =>
      exact .removed hgame hchosen (nestOfEvil_not_mem hremoved)
  | chooseTokens =>
    cases hchosen : s.chosen with
    | some tokens =>
      have h : s.after .chooseTokens = s := congrArg Prod.snd (on_chooseTokens_of_some hchosen)
      rw [h]
      exact .same (.refl s)
    | none =>
      have h : s.after .chooseTokens = { s with chosen := some (s.boundItems ++ s.progressionFlags) } :=
        congrArg Prod.snd (on_chooseTokens_of_none hchosen)
      rw [h]
      exact .chosen hchosen
  | rank ignored =>
    have h : s.after (.rank ignored) = s := leaves_rank ignored s
    rw [h]
    exact .same (.refl s)
  | inquire q => exact .same (.refl s)
  -- the other operations change the inventory or the definitions
  | hold t => exact .same ⟨rfl, rfl, rfl, rfl⟩
  | setInventory ts => exact .same ⟨rfl, rfl, rfl, rfl⟩
  | override n r => exact .same ⟨rfl, rfl, rfl, rfl⟩
  | setRedWallSouls first second third fourth => exact .same ⟨rfl, rfl, rfl, rfl⟩
  | removePortraitPrerequisites => exact .same ⟨rfl, rfl, rfl, rfl⟩
  | removeParanoiaPrerequisite => exact .same ⟨rfl, rfl, rfl, rfl⟩

/-- Tokens that are chosen are there after any operation. -/
theorem chosen_after {tokens : List Token} (h : s.chosen = some tokens) (op : Operation) :
    (s.after op).chosen = some tokens := by
  have hstep := after_step s op
  generalize s.after op = s' at hstep ⊢
  cases hstep with
  | same hsame => rw [hsame.chosen, h]
  | chosen hchosen => rw [hchosen] at h; cases h
  | removed hgame hchosen hnest => rw [hchosen] at h; cases h

/-- Once tokens are chosen, they cannot be chosen again, and no portraits can be taken out. -/
theorem fails_of_chosen {tokens : List Token} (h : s.chosen = some tokens) :
    (∃ e, s.answerTo .chooseTokens = .error e) ∧ ∀ names, ∃ e, s.answerTo (.removePortraits names) = .error e := by
  refine ⟨⟨_, congrArg Prod.fst (on_chooseTokens_of_some h)⟩, fun names => ?_⟩
  show ∃ e, ((removePortraits names).on s).1 = .error e
  have hstep := removePortraits_step names s
  generalize (removePortraits names).on s = p at hstep ⊢
  cases hstep with
  | otherGame hgame => exact ⟨_, rfl⟩
  | late hgame hchosen => exact ⟨_, rfl⟩
  | unknown hgame hchosen hremoved => exact ⟨_, rfl⟩
  | none hgame hchosen hnames => rw [hchosen] at h; cases h
  | some hgame hchosen hnames hremoved hleft => rw [hchosen] at h; cases h

/-- When choosing succeeds, there are no tokens before, and those of the session after. -/
theorem chosen_of_answerTo (h : s.answerTo .chooseTokens = .ok ()) :
    s.chosen = none ∧ (s.after .chooseTokens).chosen = some (s.boundItems ++ s.progressionFlags) := by
  cases hchosen : s.chosen with
  | some tokens =>
    obtain ⟨e, he⟩ := (fails_of_chosen hchosen).1
    rw [he] at h
    cases h
  | none => exact ⟨rfl, congrArg (fun p => p.2.chosen) (on_chooseTokens_of_none hchosen)⟩

/-! ## Runs -/

/-- What holds of tokens and portraits at any time: portraits are taken out in one game only, and never Nest of Evil;
no token is chosen twice, and none for a portrait that is out of the game. -/
structure Orderly (s : Session) : Prop where
  game : s.removedPortraits ≠ [] → s.settings.game = .por
  nest : Portrait.nestOfEvil ∉ s.removedPortraits
  tokens : ∀ tokens, s.chosen = some tokens → tokens.Nodup ∧ ∀ n ∈ s.removedPortraits, .flag n ∉ tokens

theorem orderly_start (w : World) (settings : Settings) : (start w settings).Orderly :=
  ⟨fun h => absurd rfl h, List.not_mem_nil, nofun⟩

theorem Orderly.after (h : s.Orderly) (op : Operation) : (s.after op).Orderly := by
  have hstep := after_step s op
  generalize s.after op = s' at hstep ⊢
  cases hstep with
  | same hsame =>
    refine ⟨?_, ?_, ?_⟩
    · rw [hsame.removedPortraits, hsame.settings]
      exact h.game
    · rw [hsame.removedPortraits]
      exact h.nest
    · rw [hsame.chosen, hsame.removedPortraits]
      exact h.tokens
  | chosen hchosen =>
    refine ⟨h.game, h.nest, fun tokens htokens => ?_⟩
    obtain rfl := Option.some.inj htokens
    exact ⟨(lists_boundItems_append s).nodup, fun n hn => (lists_boundItems_append s).flag_not_mem h.game hn⟩
  | removed hgame hchosen hnest =>
    refine ⟨fun _ => hgame, hnest, fun tokens htokens => ?_⟩
    rw [show s.chosen = some tokens from htokens] at hchosen
    cases hchosen

/-- What every operation keeps holds after every run. -/
theorem afterAll_induction {I : Session → Prop} (h : I s) (hstep : ∀ s op, I s → I (s.after op))
    (ops : List Operation) : I (s.afterAll ops) := by
  induction ops generalizing s with
  | nil => exact h
  | cons op ops ih => exact ih (hstep s op h)

theorem orderly_afterAll (w : World) (settings : Settings) (ops : List Operation) :
    ((start w settings).afterAll ops).Orderly :=
  afterAll_induction (orderly_start w settings) (fun _ op h => h.after op) ops

theorem chosen_afterAll {tokens : List Token} (h : s.chosen = some tokens) (ops : List Operation) :
    (s.afterAll ops).chosen = some tokens :=
  afterAll_induction (I := fun s => s.chosen = some tokens) h (fun _ op h => chosen_after h op) ops

/-- In a run of operations, the tokens are chosen right after the operations `before`. -/
def ChoosesAfter (s : Session) (ops before : List Operation) : Prop :=
  (∃ later, ops = before ++ .chooseTokens :: later) ∧ (s.afterAll before).answerTo .chooseTokens = .ok ()

variable {ops before before' : List Operation}

theorem ChoosesAfter.chosen (h : s.ChoosesAfter ops before) :
    (s.afterAll ops).chosen = some ((s.afterAll before).boundItems ++ (s.afterAll before).progressionFlags) := by
  obtain ⟨⟨later, rfl⟩, hok⟩ := h
  rw [afterAll_append]
  exact chosen_afterAll (chosen_of_answerTo hok).2 later

theorem ChoosesAfter.answerTo_ne_ok (h : s.ChoosesAfter ops before) :
    (s.afterAll ops).answerTo .chooseTokens ≠ .ok () := by
  intro hok
  have hchosen := h.chosen
  rw [(chosen_of_answerTo hok).1] at hchosen
  cases hchosen

/-- Where choosing succeeds after one list of operations, it does not succeed after a longer one. -/
theorem eq_of_append_eq {later later' more : List Operation}
    (hok : (s.afterAll before).answerTo .chooseTokens = .ok ())
    (hok' : (s.afterAll before').answerTo .chooseTokens = .ok ()) (hmore : before' = before ++ more)
    (hlater : .chooseTokens :: later = more ++ .chooseTokens :: later') : before = before' := by
  cases more with
  | nil => rw [hmore, List.append_nil]
  | cons op more =>
    obtain rfl : .chooseTokens = op := (List.cons.inj hlater).1
    exact absurd hok' (ChoosesAfter.answerTo_ne_ok ⟨⟨more, hmore⟩, hok⟩)

/-- Choosing does not succeed a second time. -/
theorem ChoosesAfter.eq (h : s.ChoosesAfter ops before) (h' : s.ChoosesAfter ops before') : before = before' := by
  obtain ⟨⟨later, rfl⟩, hok⟩ := h
  obtain ⟨⟨later', heq⟩, hok'⟩ := h'
  rcases List.append_eq_append_iff.1 heq with ⟨more, hmore, hlater⟩ | ⟨more, hmore, hlater⟩
  · exact eq_of_append_eq hok hok' hmore hlater
  · exact (eq_of_append_eq hok' hok hmore hlater).symm

/-- Tokens that are there were chosen in the run. -/
theorem exists_choosesAfter (hnone : s.chosen = none) (h : (s.afterAll ops).chosen ≠ none) :
    ∃ before, s.ChoosesAfter ops before := by
  induction ops using List.reverseRecOn with
  | nil => exact absurd hnone h
  | append_singleton ops op ih =>
    by_cases hchosen : (s.afterAll ops).chosen = none
    · rw [afterAll_append] at h
      replace h : ((s.afterAll ops).after op).chosen ≠ none := h
      have hstep := after_step (s.afterAll ops) op
      generalize (s.afterAll ops).after op = s' at hstep h
      cases hstep with
      | same hsame => exact absurd (hsame.chosen.trans hchosen) h
      | chosen _ => exact ⟨ops, ⟨[], rfl⟩, congrArg Prod.fst (on_chooseTokens_of_none hchosen)⟩
      | removed _ _ _ => exact absurd hchosen h
    · obtain ⟨before, ⟨later, hops⟩, hok⟩ := ih hchosen
      exact ⟨before, ⟨later ++ [op], by rw [hops]; simp⟩, hok⟩

end Session

/-- Over every run of a session the tokens are chosen at most once. What is then listed by the session is chosen, and
is there at any time after, while choosing again and taking out portraits fail. Tokens that are there were chosen in
the run, no two of them are the same, and none of them is a portrait that is out of the game; Nest of Evil never is. -/
theorem tokens_of_run (w : World) (settings : Settings) (ops : List Operation) :
    (∀ before before', (Session.start w settings).ChoosesAfter ops before →
      (Session.start w settings).ChoosesAfter ops before' → before = before') ∧
    (∀ before, (Session.start w settings).ChoosesAfter ops before →
      ∃ tokens, ((Session.start w settings).afterAll before).Lists tokens ∧
        (((Session.start w settings).afterAll before).after .chooseTokens).chosen = some tokens ∧
        ((Session.start w settings).afterAll ops).chosen = some tokens ∧
        (∃ e, ((Session.start w settings).afterAll ops).answerTo .chooseTokens = .error e) ∧
        ∀ names, ∃ e, ((Session.start w settings).afterAll ops).answerTo (.removePortraits names) = .error e) ∧
    (∀ tokens, ((Session.start w settings).afterAll ops).chosen = some tokens →
      (∃ before, (Session.start w settings).ChoosesAfter ops before) ∧ tokens.Nodup ∧
        ∀ n ∈ ((Session.start w settings).afterAll ops).removedPortraits, .flag n ∉ tokens) ∧
    Portrait.nestOfEvil ∉ ((Session.start w settings).afterAll ops).removedPortraits := by
  have horderly := Session.orderly_afterAll w settings ops
  refine ⟨fun _ _ h h' => h.eq h', fun before h => ?_, fun tokens htokens => ?_, horderly.nest⟩
  · refine ⟨_, Session.lists_boundItems_append _, (Session.chosen_of_answerTo h.2).2, h.chosen, ?_⟩
    exact Session.fails_of_chosen h.chosen
  · obtain ⟨hnodup, hremoved⟩ := horderly.tokens tokens htokens
    refine ⟨Session.exists_choosesAfter rfl fun hnone => ?_, hnodup, hremoved⟩
    rw [hnone] at htokens
    cases htokens

/-- A world with two pickups, one of them under two names, and two portraits. -/
def gallery : World where
  flags := .ofTexts [] ["portrait_dark_academy", "portrait_city_of_haze"]
  definitions := .ofList [("lamp", .atom (.item 5)), ("key", .atom (.item 3)), ("light", .atom (.item 5))]
  glitchDefinitions := ∅
  preferences := ∅
  places := ∅

/-- A portrait is taken out, the tokens are chosen, and another pickup is bound afterwards. -/
theorem tokens_of_run_gallery :
    ((Session.start gallery ⟨.por, false, false⟩).afterAll [.removePortraits ["portrait_dark_academy"], .chooseTokens,
        .override "relic" (.atom (.item 7))]).chosen =
      some [.item 5, .item 3, .flag "portrait_city_of_haze"] ∧
    ∃ e, ((Session.start gallery ⟨.por, false, false⟩).afterAll [.removePortraits ["portrait_dark_academy"],
        .chooseTokens, .override "relic" (.atom (.item 7))]).answerTo (.removePortraits []) = .error e := by
  obtain ⟨-, hchosen, -, -⟩ := tokens_of_run gallery ⟨.por, false, false⟩
    [.removePortraits ["portrait_dark_academy"], .chooseTokens, .override "relic" (.atom (.item 7))]
  obtain ⟨tokens, -, hthen, hnow, -, hfails⟩ :=
    hchosen [.removePortraits ["portrait_dark_academy"]] ⟨⟨[.override "relic" (.atom (.item 7))], rfl⟩, rfl⟩
  obtain rfl : [.item 5, .item 3, .flag "portrait_city_of_haze"] = tokens := Option.some.inj hthen
  exact ⟨hnow, hfails []⟩

end Progression
