import Progression.Proofs.Session.Accessible
import Progression.Proofs.Session.Commands

/-!
# What a ranking says

Ranking changes the inventory for one token after the other, but what it finds for a token is what the session would
answer with that token alone: the loop comes to a loop of queries (`Session.rank_eq`). So a ranking comes to an end if
all locations without the tag can be checked, now and with each token, and then counts for every token the locations
that it alone would open (`rank_correct`).
-/

namespace Progression

/-! ## Loops that fill a table -/

section

variable {ε κ β : Type} [DecidableEq κ] {f : κ → Except ε β} {ks : List κ} {t t' : Table κ β}

theorem get?_of_foldlM_set (h : ks.foldlM (fun t k => do return t.set k (← f k)) t = .ok t') :
    (∀ k ∈ ks, ∃ v, f k = .ok v) ∧ ∀ k, t'.get? k = if k ∈ ks then (f k).toOption else t.get? k := by
  induction ks generalizing t with
  | nil =>
    obtain rfl : t = t' := Except.ok.inj h
    exact ⟨fun k hk => absurd hk List.not_mem_nil, fun k => (if_neg List.not_mem_nil).symm⟩
  | cons k ks ih =>
    rw [List.foldlM_cons] at h
    obtain ⟨t₁, h₁, h⟩ := bind_eq_ok.1 h
    obtain ⟨v, hv, h₁⟩ := bind_eq_ok.1 h₁
    obtain rfl : t.set k v = t₁ := Except.ok.inj h₁
    obtain ⟨hall, hget⟩ := ih h
    refine ⟨List.forall_mem_cons.2 ⟨⟨v, hv⟩, hall⟩, fun j => ?_⟩
    rw [hget, Table.get?_set]
    by_cases hj : j = k
    · subst hj
      simp [hv, Except.toOption]
    · simp [hj]

/-- A loop that fills an empty table binds each key to what was found for it. -/
theorem get?_eq_some_of_foldlM_set {k : κ} {v : β}
    (h : ks.foldlM (fun (t : Table κ β) k => do return t.set k (← f k)) ∅ = .ok t') :
    t'.get? k = some v ↔ k ∈ ks ∧ f k = .ok v := by
  rw [(get?_of_foldlM_set h).2 k]
  by_cases hk : k ∈ ks
  · rw [if_pos hk]
    rcases f k with e | v' <;> simp [hk, Except.toOption]
  · rw [if_neg hk]
    simp [hk]

theorem exists_foldlM_set (t : Table κ β) (h : ∀ k ∈ ks, ∃ v, f k = .ok v) :
    ∃ t', ks.foldlM (fun t k => do return t.set k (← f k)) t = .ok t' := by
  induction ks generalizing t with
  | nil => exact ⟨t, rfl⟩
  | cons k ks ih =>
    obtain ⟨⟨v, hv⟩, hall⟩ := List.forall_mem_cons.1 h
    obtain ⟨t', ht'⟩ := ih (t.set k v) hall
    refine ⟨t', ?_⟩
    rw [List.foldlM_cons]
    exact bind_eq_ok.2 ⟨t.set k v, bind_eq_ok.2 ⟨v, hv, rfl⟩, ht'⟩

end

namespace Session

/-! ## The loop over the tokens -/

section

variable (ignored : Tag) (baseline : List LocationKey)

/-- How many locations next to those in `baseline` are reachable with one more token. -/
def opened (s : Session) (t : Token) : Except Failure Nat := do
  return ((← within (.ranking t) (reachable ignored (s.plus t)).answer).filter (· ∉ baseline)).length

variable {s base : Session}

/-- Whatever tokens were tried before, a token is tried with the inventory that the scope began with. -/
theorem on_countOpened (hs : { s with inventory := base.inventory } = base) (t : Token) :
    (countOpened ignored base.inventory baseline t).on s = (base.opened ignored baseline t, base.plus t) := by
  have hreset : { s with inventory := (s.scope base.inventory).reset.current } = base := by
    rw [Scope.current_reset]
    exact hs
  have hadd : { base with inventory := ((base.scope base.inventory).update (·.add t)).current } = base.plus t := by
    rw [Scope.current_update]
    rfl
  unfold countOpened
  rw [Command.on_bind, on_changeScope, hreset]
  simp only [Command.on_bind, on_changeScope, hadd, Command.on_ask, Query.answer_within]
  unfold opened
  rcases within (.ranking t) (reachable ignored (base.plus t)).answer with e | keys <;> rfl

theorem on_foldlM_countOpened (ts : List Token) (ranking : Table Token Nat)
    (hs : { s with inventory := base.inventory } = base) :
    (Command.on (ts.foldlM (fun (ranking : Table Token Nat) t => do
      return ranking.set t (← countOpened ignored base.inventory baseline t)) ranking) s).1 =
        ts.foldlM (fun ranking t => do return ranking.set t (← base.opened ignored baseline t)) ranking := by
  induction ts generalizing s ranking with
  | nil => rfl
  | cons t ts ih =>
    rw [List.foldlM_cons, List.foldlM_cons, Command.on_bind, Command.on_bind, on_countOpened ignored baseline hs t]
    rcases base.opened ignored baseline t with e | n
    · rfl
    · exact ih (ranking.set t n) rfl

/-- Ranking comes to asking for each token on its own. -/
theorem rank_eq {tokens : List Token} (h : s.chosen = some tokens) :
    ((rank ignored).on s).1 = (reachable ignored s).answer >>= fun baseline =>
      (tokens.filter (· ∉ s.inventory)).foldlM
        (fun ranking t => do return ranking.set t (← s.opened ignored baseline t)) ∅ := by
  have htokens : s.progressionTokens.answer = .ok tokens := by
    unfold progressionTokens
    rw [h]
    rfl
  unfold rank
  simp only [Command.on_bind, Command.on_ask, Command.on_get, htokens, on_inScope, Command.on_tell]
  rcases (reachable ignored s).answer with e | baseline
  · rfl
  · exact on_foldlM_countOpened ignored baseline _ ∅ rfl

end

/-! ## What is counted -/

/-- Every location without the tag can be checked. -/
def Checkable (s : Session) (ignored : Tag) : Prop :=
  ∀ e ∈ s.world.places.entries, ignored ∉ e.2.tags → ∃ b, (s.isAccessible e.1).answer = .ok b

/-- How many locations without the tag are not accessible, but would be with one more token. -/
def gained (s : Session) (ignored : Tag) (t : Token) : Nat :=
  s.world.places.entries.countP fun e =>
    ignored ∉ e.2.tags ∧ ((s.plus t).isAccessible e.1).answer = .ok true ∧ (s.isAccessible e.1).answer ≠ .ok true

/-- The keys of the locations without the tag that are accessible. -/
def reachableKeys (s : Session) (ignored : Tag) : List LocationKey :=
  ((s.world.places.entries.filter fun e => ignored ∉ e.2.tags).filter fun e =>
    affirmed (s.checkEntry e).answer).map Prod.fst

variable {s : Session} {ignored : Tag} {t : Token}

theorem reachable_eq_ok {keys : List LocationKey} :
    (reachable ignored s).answer = .ok keys ↔ s.Checkable ignored ∧ keys = s.reachableKeys ignored := by
  have hall : s.Checkable ignored ↔ ∀ e ∈ s.world.places.entries.filter fun e => ignored ∉ e.2.tags,
      ∃ b, (s.checkEntry e).answer = .ok b := by
    constructor
    · intro h e he
      obtain ⟨he, htag⟩ := List.mem_filter.1 he
      rw [← isAccessible_of_mem he]
      exact h e he (of_decide_eq_true htag)
    · intro h e he htag
      rw [isAccessible_of_mem he]
      exact h e (List.mem_filter.2 ⟨he, decide_eq_true htag⟩)
  rw [hall]
  exact filterM_checkEntry_eq_ok

/-- Locations are told apart by their keys, so the keys say which of them are reachable. -/
theorem mem_reachableKeys {e : LocationKey × Place} (he : e ∈ s.world.places.entries) :
    e.1 ∈ s.reachableKeys ignored ↔ ignored ∉ e.2.tags ∧ (s.checkEntry e).answer = .ok true := by
  simp only [reachableKeys, List.mem_map, List.mem_filter, decide_eq_true_eq, affirmed_eq_true]
  constructor
  · rintro ⟨e', ⟨⟨he', htag⟩, hyes⟩, hkey⟩
    have hvalue : e'.2 = e.2 := by
      have h := Table.get?_eq_some_iff.2 he'
      rw [hkey, Table.get?_eq_some_iff.2 he] at h
      exact (Option.some.inj h).symm
    obtain rfl : e' = e := Prod.ext hkey hvalue
    exact ⟨htag, hyes⟩
  · rintro ⟨htag, hyes⟩
    exact ⟨e, ⟨⟨he, htag⟩, hyes⟩, rfl⟩

theorem length_reachableKeys_plus (s : Session) (ignored : Tag) (t : Token) :
    (((s.plus t).reachableKeys ignored).filter (· ∉ s.reachableKeys ignored)).length = s.gained ignored t := by
  show ((((s.world.places.entries.filter _).filter _).map Prod.fst).filter _).length = _
  rw [List.filter_map, List.length_map, List.filter_filter, List.filter_filter, ← List.countP_eq_length_filter]
  refine List.countP_congr fun e he => ?_
  have hnow := isAccessible_of_mem he
  have hplus : (s.plus t).isAccessible e.1 = (s.plus t).checkEntry e := isAccessible_of_mem he
  simp only [Function.comp_apply, Bool.and_eq_true, decide_eq_true_eq, affirmed_eq_true, mem_reachableKeys he, hnow,
    hplus, not_and]
  constructor
  · rintro ⟨⟨hnew, hyes⟩, htag⟩
    exact ⟨htag, hyes, hnew htag⟩
  · rintro ⟨htag, hyes, hno⟩
    exact ⟨⟨fun _ => hno, hyes⟩, htag⟩

theorem opened_eq_ok {baseline : List LocationKey} {n : Nat} (h : (reachable ignored s).answer = .ok baseline) :
    s.opened ignored baseline t = .ok n ↔ (s.plus t).Checkable ignored ∧ n = s.gained ignored t := by
  obtain ⟨-, rfl⟩ := reachable_eq_ok.1 h
  unfold opened
  rw [bind_eq_ok]
  constructor
  · rintro ⟨keys, hkeys, hn⟩
    obtain ⟨hcheckable, rfl⟩ := reachable_eq_ok.1 (within_eq_ok.1 hkeys)
    exact ⟨hcheckable, (Except.ok.inj hn).symm.trans (length_reachableKeys_plus s ignored t)⟩
  · rintro ⟨hcheckable, rfl⟩
    refine ⟨_, within_eq_ok.2 (reachable_eq_ok.2 ⟨hcheckable, rfl⟩), ?_⟩
    exact congrArg Except.ok (length_reachableKeys_plus s ignored t)

end Session

/-- A ranking comes to an end if and only if every location without the tag can be checked, with what is held and
with each progression token besides. Then it ranks the progression tokens that are not held, each by the number of
locations without the tag that it alone would open. -/
theorem rank_correct (s : Session) (ignored : Tag) (tokens : List Token) (h : s.chosen = some tokens) :
    ((∃ m, ((Session.rank ignored).on s).1 = .ok m) ↔
      s.Checkable ignored ∧ ∀ t ∈ tokens, t ∉ s.inventory → (s.plus t).Checkable ignored) ∧
    ∀ m, ((Session.rank ignored).on s).1 = .ok m →
      (∀ t, t ∈ m ↔ t ∈ tokens ∧ t ∉ s.inventory) ∧ ∀ t ∈ m, m.get? t = some (s.gained ignored t) := by
  have hcandidate : ∀ t, t ∈ tokens.filter (· ∉ s.inventory) ↔ t ∈ tokens ∧ t ∉ s.inventory := fun t => by
    rw [List.mem_filter, decide_eq_true_eq]
  rw [Session.rank_eq ignored h]
  refine ⟨⟨?_, ?_⟩, ?_⟩
  · rintro ⟨m, hm⟩
    obtain ⟨baseline, hbaseline, hm⟩ := bind_eq_ok.1 hm
    refine ⟨(Session.reachable_eq_ok.1 hbaseline).1, fun t ht hheld => ?_⟩
    obtain ⟨n, hn⟩ := (get?_of_foldlM_set hm).1 t ((hcandidate t).2 ⟨ht, hheld⟩)
    exact ((Session.opened_eq_ok hbaseline).1 hn).1
  · rintro ⟨hnow, hplus⟩
    have hbaseline := Session.reachable_eq_ok.2 ⟨hnow, rfl⟩
    obtain ⟨m, hm⟩ := exists_foldlM_set ∅ fun t ht =>
      have ⟨htokens, hheld⟩ := (hcandidate t).1 ht
      ⟨s.gained ignored t, (Session.opened_eq_ok hbaseline).2 ⟨hplus t htokens hheld, rfl⟩⟩
    exact ⟨m, bind_eq_ok.2 ⟨_, hbaseline, hm⟩⟩
  · intro m hm
    obtain ⟨baseline, hbaseline, hm⟩ := bind_eq_ok.1 hm
    refine ⟨fun t => ?_, fun t ht => ?_⟩
    · rw [← hcandidate, Table.mem_iff_get?]
      constructor
      · rintro ⟨n, hn⟩
        exact ((get?_eq_some_of_foldlM_set hm).1 hn).1
      · intro ht
        obtain ⟨n, hn⟩ := (get?_of_foldlM_set hm).1 t ht
        exact ⟨n, (get?_eq_some_of_foldlM_set hm).2 ⟨ht, hn⟩⟩
    · obtain ⟨n, hn⟩ := Table.mem_iff_get?.1 ht
      obtain ⟨-, hopened⟩ := (get?_eq_some_of_foldlM_set hm).1 hn
      rw [hn, ((Session.opened_eq_ok hbaseline).1 hopened).2]

/-- A session in which one of two progression tokens opens the only location. -/
def keySession : Session :=
  { knot.sessionWith ∅ (.atom (.reference "key")) with chosen := some [.item 3, .item 5] }

theorem rank_correct_keySession :
    ∃ m, ((Session.rank .noProgression).on keySession).1 = .ok m ∧ m.get? (.item 3) = some 1 ∧
      m.get? (.item 5) = some 0 := by
  obtain ⟨-, hranked⟩ := rank_correct keySession .noProgression [.item 3, .item 5] rfl
  have hrun : ((Session.rank .noProgression).on keySession).1 = .ok (.ofList [(.item 3, 1), (.item 5, 0)]) := rfl
  obtain ⟨hkeys, hcounts⟩ := hranked _ hrun
  refine ⟨_, hrun, ?_, ?_⟩
  · exact hcounts (.item 3) ((hkeys (.item 3)).2 (by decide))
  · exact hcounts (.item 5) ((hkeys (.item 5)).2 (by decide))

end Progression
