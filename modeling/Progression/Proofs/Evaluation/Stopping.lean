import Progression.Proofs.Evaluation.Row
import Progression.Proofs.Evaluation.Termination

/-!
# Checks that stop

A check stops only at a name that means nothing (`meaning_of_error`), and the names that are open at that moment stay
marked. The log tells which ones: the memo can be replayed from it, and a name is marked just if it was asked for and
never settled (`marked_iff_leftOpen`). A marked name answers "no" for good, so a name that stopped once and is asked
again answers "no" unless it is itself the name that means nothing. No mark ever stays if and only if names that mean
something never stop (`marks_after_stop`).
-/

namespace Progression

section

variable {book : Rulebook} {held : Inventory} {n k e : Name} {memo m : Memo} {b : Bool}

/-! ## What a check stops at -/

theorem settles_errors (book : Rulebook) (held : Inventory) :
    Settles book held (fun (_ : Unit) _ => ()) (fun _ _ => True) (fun _ _ => True) (fun _ _ => True)
      (fun a (_ : Id Bool) => ∀ k, a = .error k → book.meaning k = .undefined) (fun _ _ => false) where
  follows := follows_of_ok fun _ => nofun
  constant _ _ := nofun
  undefined _ _ hmean := ⟨fun _ hk => by cases hk; exact hmean, trivial⟩
  known _ _ _ := nofun
  token _ _ _ _ := ⟨nofun, trivial⟩
  mark _ _ _ _ := ⟨trivial, fun _ _ => trivial⟩
  settle _ _ _ _ := ⟨nofun, trivial⟩
  stop _ _ _ hbody := ⟨hbody, trivial⟩

/-- A check stops only at a name that means nothing. -/
theorem meaning_of_error (h : ((book.checkName held n).on memo).1 = .error k) : book.meaning k = .undefined :=
  ((settles_errors book held).checkName (c := ()) (n := n) trivial memo trivial).1 k h

/-- A name that means nothing stops the check, whatever the memo says. -/
theorem checkName_of_undefined (h : book.meaning n = .undefined) (held : Inventory) (memo : Memo) :
    (book.checkName held n).on memo = (.error n, memo) := by
  have hstep := book.checkName_step held n memo
  generalize (book.checkName held n).on memo = p at hstep ⊢
  cases hstep with
  | undefined hmean => rfl
  | known hmean hget => obtain ⟨t, hmean⟩ | ⟨r, hmean⟩ := hmean <;> rw [h] at hmean <;> cases hmean
  | constant hmean => rw [h] at hmean; cases hmean
  | token hmean hget => rw [h] at hmean; cases hmean
  | opened hmean hget hbody => rw [h] at hmean; cases hmean
  | stopped hmean hget hbody => rw [h] at hmean; cases hmean

/-- A name that stops the check at another name stays marked. -/
theorem marked_of_stopped (h : (book.checkName held n).on memo = (.error e, m)) (hne : n ≠ e) :
    (∃ r, book.meaning n = .bound r) ∧ m.get? n = some .inProgress := by
  have hstep := book.checkName_step held n memo
  rw [h] at hstep
  cases hstep with
  | undefined hmean => exact absurd rfl hne
  | @stopped r _ _ hmean hget hbody =>
    have hgrows := grows_check book held r (memo.set n .inProgress)
    rw [hbody] at hgrows
    exact ⟨⟨r, hmean⟩, hgrows n _ (by rw [Table.get?_set, if_pos rfl])⟩

/-! ## Marks while checks answer -/

/-- While a check answers it marks no other names than open ones, and where it stops, only bound ones. -/
theorem settles_marks (book : Rulebook) (held : Inventory) :
    Settles book held (fun opened n k => k = n ∨ opened k) (fun _ _ => True) (Records fun _ _ => True)
      (fun opened => Records (fun _ _ => True) fun k => (∃ r, book.meaning k = .bound r) ∨ opened k)
      (fun _ (_ : Id Bool) => True) (fun _ _ => false) where
  follows := follows_of_ok fun _ => trivial
  constant _ _ := trivial
  undefined _ hmemo _ := ⟨trivial, hmemo.mono fun _ => .inr⟩
  known _ _ _ := trivial
  token _ hmemo _ _ := ⟨trivial, (hmemo.mono fun _ => .inr).settle trivial⟩
  mark _ hmemo _ _ := ⟨hmemo.mark _, fun _ _ => trivial⟩
  settle _ _ hm _ := ⟨trivial, hm.settle trivial⟩
  stop {opened n m r e} _ hmean hm _ := by
    refine ⟨trivial, hm.mono fun k hk => ?_⟩
    rcases hk with hbound | rfl | hopened
    · exact .inl hbound
    · exact .inl ⟨r, hmean⟩
    · exact .inr hopened

/-- A mark that a requirement leaves was there, unless the check stopped; then the name is bound. -/
theorem marked_of_check {r : Requirement} {a : Except Name Bool} (h : (book.check held r).on memo = (a, m))
    (hmarked : m.get? k = some .inProgress) :
    memo.get? k = some .inProgress ∨ (∃ e, a = .error e) ∧ ∃ r, book.meaning k = .bound r := by
  have hmemo : Records (fun _ _ => True) (fun k => memo.get? k = some .inProgress) memo := ⟨fun _ => trivial, id⟩
  have hcheck := (settles_marks book held).check (c := fun k => memo.get? k = some .inProgress) (r := r)
    fun _ _ => trivial
  cases a with
  | error e =>
    rcases (hcheck.of_error hmemo h).2.marked hmarked with hbound | hthere
    · exact .inr ⟨⟨e, rfl⟩, hbound⟩
    · exact .inl hthere
  | ok b => exact .inl ((hcheck.of_ok hmemo h).2.marked hmarked)

/-- A requirement that is answered leaves no mark that was not there. -/
theorem marked_of_answered {r : Requirement} (h : (book.check held r).on memo = (.ok b, m))
    (hmarked : m.get? k = some .inProgress) : memo.get? k = some .inProgress := by
  refine (marked_of_check h hmarked).resolve_right ?_
  rintro ⟨⟨e, he⟩, -⟩
  cases he

theorem marked_of_answered_names {ns : List Name} {bs : List Bool} (h : (book.checkNames held ns).on memo = (.ok bs, m))
    (hmarked : m.get? k = some .inProgress) : memo.get? k = some .inProgress := by
  induction ns generalizing memo bs with
  | nil =>
    cases h
    exact hmarked
  | cons n ns ih =>
    obtain ⟨b, cs, m', -, hn, hns⟩ := checkNames_cons_eq_ok.1 h
    exact marked_of_answered (r := .atom (.reference n)) hn (ih hns)

/-- Only bound names are ever marked. -/
theorem bound_of_marked (qs : List Question) (h : (book.memoAfter held qs).get? k = some .inProgress) :
    ∃ r, book.meaning k = .bound r := by
  refine Rulebook.memoAfter_induction (I := fun memo => ∀ k, memo.get? k = some .inProgress →
    ∃ r, book.meaning k = .bound r) (fun k hk => ?_) (fun q memo hmemo k hk => ?_) qs k h
  · simp at hk
  · rw [Rulebook.ask_eq] at hk
    rcases marked_of_check rfl hk with hthere | ⟨-, hbound⟩
    · exact hmemo k hthere
    · exact hbound

/-! ## Stopping in a row -/

/-- Where the check stops, it does as a name that is asked after some names in a row. -/
def StopsInRow (book : Rulebook) (held : Inventory) (c : Check Bool) : Prop :=
  ∀ memo e m, c.on memo = (.error e, m) → ∃ ns bs m' n,
    (book.checkNames held ns).on memo = (.ok bs, m') ∧ (book.checkName held n).on m' = (.error e, m)

theorem StopsInRow.after {ns : List Name} {bs : List Bool} {c : Check Bool} (h : StopsInRow book held c)
    (hns : (book.checkNames held ns).on memo = (.ok bs, m)) {m' : Memo} (hc : c.on m = (.error e, m')) :
    ∃ ns bs m₁ n, (book.checkNames held ns).on memo = (.ok bs, m₁) ∧
      (book.checkName held n).on m₁ = (.error e, m') := by
  obtain ⟨ns', bs', m₁, n, hns', hn⟩ := h m e m' hc
  exact ⟨ns ++ ns', bs ++ bs', m₁, n, checkNames_append hns hns', hn⟩

theorem lifts_stopsInRow (book : Rulebook) (held : Inventory) :
    Lifts fun (c : Check Bool) (_ : Id Bool) => LeavesRow book held c ∧ StopsInRow book held c where
  value b := ⟨(lifts_leavesRow book held).value b, fun _ _ _ h => by cases h⟩
  andThen {x y x' y'} hx hy := by
    refine ⟨@Lifts.andThen _ _ _ _ _ (lifts_leavesRow book held) x y x' y' hx.1 hy.1, fun memo e m h => ?_⟩
    rw [Check.on_bind] at h
    rcases hrun : x.on memo with ⟨k | (_ | _), m'⟩ <;> rw [hrun] at h
    · cases h
      exact hx.2 memo e m hrun
    · cases h
    · obtain ⟨ns, bs, hns⟩ := hx.1 memo true m' hrun
      exact hy.2.after hns h
  orElse {x y x' y'} hx hy := by
    refine ⟨@Lifts.orElse _ _ _ _ _ (lifts_leavesRow book held) x y x' y' hx.1 hy.1, fun memo e m h => ?_⟩
    rw [Check.on_bind] at h
    rcases hrun : x.on memo with ⟨k | (_ | _), m'⟩ <;> rw [hrun] at h
    · cases h
      exact hx.2 memo e m hrun
    · obtain ⟨ns, bs, hns⟩ := hx.1 memo false m' hrun
      exact hy.2.after hns h
    · cases h

theorem stopsInRow_check (book : Rulebook) (held : Inventory) (r : Requirement) :
    StopsInRow book held (book.check held r) := by
  have hname : ∀ n ∈ r.references,
      LeavesRow book held (book.checkName held n) ∧ StopsInRow book held (book.checkName held n) := fun n _ =>
    ⟨fun memo b m h => ⟨[n], [b], checkNames_singleton h⟩, fun memo e m h => ⟨[], [], memo, n, checkNames_nil, h⟩⟩
  -- there is no other way to answer here, so any will do
  exact (@Lifts.evaluate_same Check Id _ _ _ (lifts_stopsInRow book held) _ (fun _ => pure false) held r hname).2

/-- A row of names is a row of questions. -/
theorem memoAfter_append_names {qs : List Question} {ns : List Name} {bs : List Bool}
    (h : (book.checkNames held ns).on (book.memoAfter held qs) = (.ok bs, m)) :
    book.memoAfter held (qs ++ ns.map .name) = m := by
  induction ns generalizing qs bs with
  | nil =>
    cases h
    rw [List.map_nil, List.append_nil]
  | cons n ns ih =>
    obtain ⟨b, cs, m', -, hn, hns⟩ := checkNames_cons_eq_ok.1 h
    have hstep : book.memoAfter held (qs ++ [.name n]) = m' := by
      rw [Rulebook.memoAfter_concat]
      exact congrArg Prod.snd hn
    rw [List.map_cons, ← List.singleton_append, ← List.append_assoc]
    exact ih (by rw [hstep]; exact hns)

end

/-! ## The memo in the log -/

namespace Rulebook

variable (book : Rulebook) (held : Inventory)

/-- The memo when a name has been asked for; a name that it knows is not noted again. -/
def noteAsked (memo : Memo) (n : Name) : Memo :=
  if n ∈ memo then memo
  else
    match book.meaning n with
    | .token t => memo.set n (.settled (t ∈ held))
    | .bound _ => memo.set n .inProgress
    | .constant _ => memo
    | .undefined => memo

/-- What an event of the log says about the memo. -/
def replayEvent (memo : Memo) : Event → Memo
  | .checking n => book.noteAsked held memo n
  | .settled n met => memo.set n (.settled met)
  | _ => memo

/-- The memo that a log tells of. -/
def replay (memo : Memo) (log : List Event) : Memo := log.foldl (book.replayEvent held) memo

/-- The log of some questions, answered or not. -/
def logAfter (qs : List Question) : List Event := ((book.askAll held qs).run ∅).log

/-- The name was asked for and opened, and never settled. -/
def LeftOpen (qs : List Question) (n : Name) : Prop :=
  (∃ r, book.meaning n = .bound r) ∧ .checking n ∈ book.logAfter held qs ∧ n ∉ settledNames (book.logAfter held qs)

/-- The log tells of the memo that the check leaves. -/
def Recorded (c : Check Bool) : Prop :=
  ∀ memo, (c.on memo).2 = book.replay held memo (c.run.run memo).log

end Rulebook

section

variable {book : Rulebook} {held : Inventory} {n : Name} {memo : Memo} {log : List Event}

theorem replay_append (memo : Memo) (log log' : List Event) :
    book.replay held memo (log ++ log') = book.replay held (book.replay held memo log) log' :=
  List.foldl_append

theorem lifts_recorded (book : Rulebook) (held : Inventory) :
    Lifts fun (c : Check Bool) (_ : Id Bool) => book.Recorded held c where
  value b memo := rfl
  andThen {x y _ _} hx hy memo := by
    have hmemo := hx memo
    rw [Check.on, run_bind, Logged.value_bind, Logged.log_bind, replay_append, ← hmemo, Check.on]
    rcases hrun : (x.run.run memo).value with ⟨k | (_ | _), m⟩
    · rfl
    · rfl
    · exact hy m
  orElse {x y _ _} hx hy memo := by
    have hmemo := hx memo
    rw [Check.on, run_bind, Logged.value_bind, Logged.log_bind, replay_append, ← hmemo, Check.on]
    rcases hrun : (x.run.run memo).value with ⟨k | (_ | _), m⟩
    · rfl
    · exact hy m
    · rfl

theorem Check.run_tell_bind {α : Type} (e : Event) (f : Unit → Check α) (memo : Memo) :
    (tell e >>= f).run.run memo = ⟨((f ()).run.run memo).value, e :: ((f ()).run.run memo).log⟩ := rfl

theorem Check.run_lookUp_bind {α : Type} (n : Name) (f : Option Resolution → Check α) (memo : Memo) :
    (lookUp n >>= f).run.run memo = (f (memo.get? n)).run.run memo := rfl

theorem noteAsked_of_some {x : Resolution} (h : memo.get? n = some x) : book.noteAsked held memo n = memo :=
  if_pos (Table.mem_iff_get?.2 ⟨x, h⟩)

theorem noteAsked_of_none (h : memo.get? n = none) :
    book.noteAsked held memo n = match book.meaning n with
      | .token t => memo.set n (.settled (t ∈ held))
      | .bound _ => memo.set n .inProgress
      | .constant _ => memo
      | .undefined => memo :=
  if_neg (Table.get?_eq_none_iff.1 h)

/-- A name whose meaning is constant, or that means nothing, is never noted. -/
theorem noteAsked_of_unnoted (h : (∃ b, book.meaning n = .constant b) ∨ book.meaning n = .undefined) :
    book.noteAsked held memo n = memo := by
  unfold Rulebook.noteAsked
  rcases h with ⟨b, h⟩ | h <;> simp only [h, ite_self]

theorem recorded_askNameWith {o : Requirement → Check Bool} (ho : ∀ r, book.Recorded held (o r)) (n : Name) :
    book.Recorded held (askNameWith book held o n) := by
  intro memo
  rw [Check.on, askNameWith, Check.run_tell_bind]
  show _ = book.replay held (book.noteAsked held memo n) _
  cases hmean : book.meaning n with
  | constant value =>
    rw [noteAsked_of_unnoted (.inl ⟨value, hmean⟩)]
    rfl
  | undefined =>
    rw [noteAsked_of_unnoted (.inr hmean)]
    rfl
  | token t =>
    simp only [Check.run_lookUp_bind]
    cases hget : memo.get? n with
    | some x =>
      rw [noteAsked_of_some hget]
      rfl
    | none =>
      rw [noteAsked_of_none hget, hmean]
      rfl
  | bound r =>
    simp only [Check.run_lookUp_bind]
    cases hget : memo.get? n with
    | some x =>
      rw [noteAsked_of_some hget]
      rfl
    | none =>
      have hbody := ho r (memo.set n .inProgress)
      rw [noteAsked_of_none hget, hmean]
      show ((Check.opening n (o r)).run.run memo).value.2 =
        book.replay held _ ((Check.opening n (o r)).run.run memo).log
      rw [Check.run_opening, Logged.value_bind, Logged.log_bind, replay_append, ← hbody, Check.on]
      rcases ((o r).run.run (memo.set n .inProgress)).value with ⟨e | met, m⟩ <;> rfl

theorem recorded_evaluate {ask : Name → Check Bool} (r : Requirement) (h : ∀ n, book.Recorded held (ask n)) :
    book.Recorded held (r.evaluate held ask) :=
  @Lifts.evaluate_same Check Id _ _ _ (lifts_recorded book held) _ (fun _ => pure false) held r fun n _ => h n

theorem recorded_askName (book : Rulebook) (held : Inventory) (budget : Nat) (n : Name) :
    book.Recorded held (askName book held budget n) := by
  induction budget generalizing n with
  | zero => exact recorded_askNameWith (fun _ memo => rfl) n
  | succ budget ih => exact recorded_askNameWith (fun r => recorded_evaluate r ih) n

theorem recorded_ask (book : Rulebook) (held : Inventory) (q : Question) : book.Recorded held (book.ask held q) := by
  rw [Rulebook.ask_eq]
  exact recorded_evaluate q.asked (recorded_askName book held _)

/-! ## Logs of questions in a row -/

theorem askAll_cons (q : Question) (qs : List Question) (memo : Memo) :
    ((book.askAll held (q :: qs)).run memo).value.2 =
        ((book.askAll held qs).run ((book.ask held q).on memo).2).value.2 ∧
      ((book.askAll held (q :: qs)).run memo).log = ((book.ask held q).run.run memo).log ++
        ((book.askAll held qs).run ((book.ask held q).on memo).2).log := by
  unfold Rulebook.askAll
  rw [List.mapM_cons, StateT.run_bind, Logged.value_bind, Logged.log_bind, StateT.run_bind, Logged.value_bind,
    Logged.log_bind]
  exact ⟨rfl, congrArg _ (List.append_nil _)⟩

/-- The log of questions in a row tells of the memo after them. -/
theorem memoAfter_eq_replay (book : Rulebook) (held : Inventory) (qs : List Question) :
    book.memoAfter held qs = book.replay held ∅ (book.logAfter held qs) := by
  unfold Rulebook.memoAfter Rulebook.logAfter
  generalize (∅ : Memo) = memo
  induction qs generalizing memo with
  | nil => rfl
  | cons q qs ih =>
    rw [(askAll_cons q qs memo).2, replay_append, ← recorded_ask book held q memo, List.foldl_cons]
    exact ih _

/-! ## Names left open -/

theorem get?_noteAsked_of_ne {k : Name} (h : n ≠ k) : (book.noteAsked held memo k).get? n = memo.get? n := by
  unfold Rulebook.noteAsked
  split
  · rfl
  · split <;> simp [Table.get?_set, h]

theorem mem_settledNames_concat (log : List Event) (ev : Event) (n : Name) :
    n ∈ settledNames (log ++ [ev]) ↔ n ∈ settledNames log ∨ ev.settledName? = some n := by
  simp only [settledNames, List.mem_filterMap, List.mem_append, List.mem_singleton, or_and_right, exists_or,
    exists_eq_left]

/-- A bound name is noted when it is asked for first, and keeps its mark until it is settled. -/
theorem get?_replay_of_bound {r : Requirement} (hmean : book.meaning n = .bound r) (log : List Event) :
    ((book.replay held ∅ log).get? n = none ↔ .checking n ∉ log ∧ n ∉ settledNames log) ∧
      ((book.replay held ∅ log).get? n = some .inProgress ↔ .checking n ∈ log ∧ n ∉ settledNames log) := by
  induction log using List.reverseRecOn with
  | nil => simp [Rulebook.replay, settledNames]
  | append_singleton log ev ih =>
    obtain ⟨hnone, hmarked⟩ := ih
    have hlast : book.replay held ∅ (log ++ [ev]) = book.replayEvent held (book.replay held ∅ log) ev :=
      replay_append ∅ log [ev]
    rw [hlast, mem_settledNames_concat, List.mem_append, List.mem_singleton]
    cases ev with
    | checking k =>
      rw [Rulebook.replayEvent]
      by_cases hk : n = k
      · subst hk
        cases hget : (book.replay held ∅ log).get? n with
        | none =>
          have hnew := hnone.1 hget
          rw [noteAsked_of_none hget, hmean]
          simp [Table.get?_set, Event.settledName?, hnew.2]
        | some x =>
          rw [hget] at hnone hmarked
          rw [noteAsked_of_some hget, hget, hmarked]
          have hknown : ¬ (.checking n ∉ log ∧ n ∉ settledNames log) := fun h => by cases hnone.2 h
          simp only [Event.settledName?]
          grind
      · rw [get?_noteAsked_of_ne hk, hnone, hmarked]
        simp [Event.settledName?, hk]
    | settled k met =>
      rw [Rulebook.replayEvent, Table.get?_set]
      by_cases hk : n = k
      · simp [hk, Event.settledName?]
      · rw [if_neg hk, hnone, hmarked]
        simp [Event.settledName?, Ne.symm hk]
    | _ =>
      -- no other event says anything about the memo
      show (Table.get? (book.replay held ∅ log) n = none ↔ _) ∧ (Table.get? (book.replay held ∅ log) n = _ ↔ _)
      rw [hnone, hmarked]
      simp [Event.settledName?]

/-- A name is marked after some questions just if it was left open. -/
theorem marked_iff_leftOpen (book : Rulebook) (held : Inventory) (qs : List Question) (n : Name) :
    (book.memoAfter held qs).get? n = some .inProgress ↔ book.LeftOpen held qs n := by
  constructor
  · intro h
    obtain ⟨r, hmean⟩ := bound_of_marked qs h
    rw [memoAfter_eq_replay] at h
    exact ⟨⟨r, hmean⟩, (get?_replay_of_bound hmean _).2.1 h⟩
  · rintro ⟨⟨r, hmean⟩, hlog⟩
    rw [memoAfter_eq_replay]
    exact (get?_replay_of_bound hmean _).2.2 hlog

/-! ## Questions after a stop -/

theorem grows_memoAfter (book : Rulebook) (held : Inventory) (qs qs' : List Question) :
    Grows (book.memoAfter held qs) (book.memoAfter held (qs ++ qs')) := by
  induction qs' using List.reverseRecOn with
  | nil =>
    rw [List.append_nil]
    exact Grows.refl _
  | append_singleton qs' q ih =>
    rw [← List.append_assoc, Rulebook.memoAfter_concat, Rulebook.ask_eq]
    exact ih.trans (grows_check book held q.asked _)

/-- A name that is left open answers "no" from then on. -/
theorem answerAfter_of_leftOpen {qs : List Question} (h : book.LeftOpen held qs n) (qs' : List Question) :
    book.answerAfter held (qs ++ qs') (.name n) = .ok false := by
  obtain ⟨r, hmean⟩ := h.1
  have hmarked := grows_memoAfter book held qs qs' n _ ((marked_iff_leftOpen book held qs n).2 h)
  have hrecall : book.recall (book.memoAfter held (qs ++ qs')) n = some false := by
    unfold Rulebook.recall
    rw [hmean, hmarked]
    rfl
  exact congrArg Prod.fst (checkName_of_recall hrecall)

/-- A name that stopped stops again if it is the name that means nothing, and else answers "no". -/
theorem answerAfter_of_stopped {qs : List Question} {e : Name}
    (h : book.answerAfter held qs (.name n) = .error e) (qs' : List Question) :
    book.answerAfter held (qs ++ .name n :: qs') (.name n) = if n = e then .error n else .ok false := by
  split
  · next hne =>
    subst hne
    exact congrArg Prod.fst (checkName_of_undefined (meaning_of_error h) held _)
  · next hne =>
    have hrun : (book.checkName held n).on (book.memoAfter held qs) =
        (.error e, book.memoAfter held (qs ++ [.name n])) :=
      Prod.ext h (Rulebook.memoAfter_concat qs (.name n)).symm
    have hopen := (marked_iff_leftOpen book held _ n).1 (marked_of_stopped hrun hne).2
    rw [List.append_cons]
    exact answerAfter_of_leftOpen hopen qs'

theorem exists_answer_of_unmarked (h : ∀ qs n, (book.memoAfter held qs).get? n ≠ some .inProgress)
    (qs : List Question) (hn : book.meaning n ≠ .undefined) : ∃ b, book.answerAfter held qs (.name n) = .ok b := by
  rcases hanswer : book.answerAfter held qs (.name n) with e | b
  · have hne : n ≠ e := fun hne => hn (hne ▸ meaning_of_error hanswer)
    have hrun : (book.checkName held n).on (book.memoAfter held qs) =
        (.error e, book.memoAfter held (qs ++ [.name n])) :=
      Prod.ext hanswer (Rulebook.memoAfter_concat qs (.name n)).symm
    exact absurd (marked_of_stopped hrun hne).2 (h _ n)
  · exact ⟨b, rfl⟩

theorem unmarked_of_exists_answer
    (h : ∀ qs n, book.meaning n ≠ .undefined → ∃ b, book.answerAfter held qs (.name n) = .ok b)
    (qs : List Question) (n : Name) : (book.memoAfter held qs).get? n ≠ some .inProgress := by
  induction qs using List.reverseRecOn generalizing n with
  | nil => exact nofun
  | append_singleton qs q ih =>
    intro hmarked
    rw [Rulebook.memoAfter_concat, Rulebook.ask_eq] at hmarked
    rcases hrun : (book.check held q.asked).on (book.memoAfter held qs) with ⟨e | b, m⟩ <;> rw [hrun] at hmarked
    · -- the question stops as some name does after a row of names, and that name means nothing
      obtain ⟨ns, bs, m', k, hns, hk⟩ := stopsInRow_check book held q.asked _ e m hrun
      have hkmean : book.meaning k = .undefined := by
        refine Classical.byContradiction fun hkmean => ?_
        obtain ⟨b, hb⟩ := h (qs ++ ns.map .name) k hkmean
        rw [Rulebook.answerAfter, memoAfter_append_names hns] at hb
        have hstop : ((book.checkName held k).on m').1 = .error e := congrArg Prod.fst hk
        cases hstop.symm.trans hb
      rw [checkName_of_undefined hkmean] at hk
      obtain rfl : m' = m := congrArg Prod.snd hk
      exact ih n (marked_of_answered_names hns hmarked)
    · exact ih n (marked_of_answered hrun hmarked)

end

/-- What stays marked after questions in a row, answered or not. A name is marked just if it was asked for and opened,
and never settled; then it answers "no" from that time on, whatever is asked in between. So a name that stopped and is
asked again stops again if it is the name that means nothing, and else answers "no". No mark ever stays if and only if
names that mean something are always answered. -/
theorem marks_after_stop (book : Rulebook) (held : Inventory) :
    (∀ qs n, (book.memoAfter held qs).get? n = some .inProgress ↔ book.LeftOpen held qs n) ∧
    (∀ qs n, book.LeftOpen held qs n → ∀ qs', book.answerAfter held (qs ++ qs') (.name n) = .ok false) ∧
    (∀ qs n e, book.answerAfter held qs (.name n) = .error e →
      ∀ qs', book.answerAfter held (qs ++ .name n :: qs') (.name n) = if n = e then .error n else .ok false) ∧
    ((∀ qs n, (book.memoAfter held qs).get? n ≠ some .inProgress) ↔
      ∀ qs n, book.meaning n ≠ .undefined → ∃ b, book.answerAfter held qs (.name n) = .ok b) := by
  refine ⟨marked_iff_leftOpen book held, fun qs n h => answerAfter_of_leftOpen h,
    fun qs n e h => answerAfter_of_stopped h, ?_⟩
  exact ⟨fun h qs n hn => exists_answer_of_unmarked h qs hn, unmarked_of_exists_answer⟩

/-- A name that refers to one that means nothing, and a name that refers to it. -/
def brokenGate : Rulebook where
  definitions := .ofList [
    ("gate", .ofClauses (.ofNames "key" ["hinge"]) []),
    ("hinge", .atom (.reference "missing")),
    ("key", .atom (.item 3))]
  glitchDefinitions := ∅
  settings := .default

/-- The gate stops at the missing name and answers "no" later on, and the missing name stops again. -/
theorem marks_after_stop_brokenGate :
    brokenGate.LeftOpen (.ofList [.item 3]) [.name "gate"] "hinge" ∧
    brokenGate.answerAfter (.ofList [.item 3]) ([.name "gate"] ++ [.name "key"]) (.name "hinge") = .ok false ∧
    brokenGate.answerAfter (.ofList [.item 3]) [] (.name "gate") = .error "missing" ∧
    brokenGate.answerAfter (.ofList [.item 3]) [.name "gate", .name "key"] (.name "gate") = .ok false ∧
    brokenGate.answerAfter (.ofList [.item 3]) [] (.name "missing") = .error "missing" ∧
    brokenGate.answerAfter (.ofList [.item 3]) [.name "missing", .name "gate"] (.name "missing") =
      .error "missing" := by
  obtain ⟨hmarked, hno, hagain, -⟩ := marks_after_stop brokenGate (.ofList [.item 3])
  have hopen := (hmarked [.name "gate"] "hinge").1 rfl
  exact ⟨hopen, hno _ _ hopen _, rfl, hagain [] "gate" "missing" rfl [.name "key"], rfl,
    hagain [] "missing" "missing" rfl [.name "gate"]⟩

/-- A mark can stay after questions, and then a name that stopped answers "no" when it is asked again. -/
theorem mark_stays :
    ¬ (∀ (book : Rulebook) (held : Inventory) (qs : List Question) (n : Name),
      (book.memoAfter held qs).get? n ≠ some .inProgress) ∧
    ¬ (∀ (book : Rulebook) (held : Inventory) (qs qs' : List Question) (n e : Name),
      book.answerAfter held qs (.name n) = .error e →
        book.answerAfter held (qs ++ .name n :: qs') (.name n) ≠ .ok false) :=
  ⟨fun h => h brokenGate (.ofList [.item 3]) [.name "gate"] "gate" rfl,
    fun h => h brokenGate (.ofList [.item 3]) [] [] "gate" "missing" rfl rfl⟩

end Progression
