import Mathlib.Data.List.Nodup
import Progression.Proofs.Evaluation.Opening
import Progression.Proofs.Evaluation.Questions

/-!
# Termination

A walk decides names as a check does, but nothing bounds it beforehand: it follows references as deep as they lead,
and comes to nothing at all if that is deeper than it may go. On the way it writes down whose requirements it
evaluates. Every walk comes to an end, whatever is in the memo, and however the definitions refer to each other: it
never goes deeper than there are bound names the memo says nothing about, and comes to what the check comes to. And
in a row of questions, answered or not, no name has its requirement evaluated twice (`askAll_evaluates_once`).
-/

namespace Progression

/-- How far a walk has come. -/
structure Trail where
  memo : Memo
  log : List Event
  /-- The names whose requirements were evaluated, in the order in which that began. -/
  evaluated : List Name

/-- A check that writes down what it evaluates, or that comes to nothing because it would have to go too deep. -/
abbrev Walk (α : Type) := ExceptT Name (StateT Trail Option) α

namespace Walk

variable {α β : Type}

def giveUp : Walk α := ExceptT.mk fun _ => none

def tell (e : Event) : Walk Unit := modify fun t => { t with log := t.log ++ [e] }

def lookUp (n : Name) : Walk (Option Resolution) := return (← get).memo.get? n

def note (n : Name) (r : Resolution) : Walk Unit := modify fun t => { t with memo := t.memo.set n r }

/-- The requirement of a name is about to be evaluated. -/
def enter (n : Name) : Walk Unit := modify fun t => { t with evaluated := t.evaluated ++ [n] }

/-- Opens a name and settles it, where `w` evaluates its requirement. -/
def opening (n : Name) (w : Walk Bool) : Walk Bool := do
  note n .inProgress
  enter n
  let met ← w
  tell (.settled n met)
  note n (.settled met)
  return met

variable (book : Rulebook) (held : Inventory)

/-- Decides a name, with at most so many names being decided inside each other. -/
def name : Nat → Name → Walk Bool
  | 0, _ => giveUp
  | depth + 1, n => do
    tell (.checking n)
    match book.meaning n with
    | .constant value => return value
    | .undefined => throw n
    | .token t =>
      match ← lookUp n with
      | some x => return x.answer
      | none =>
        enter n
        note n (.settled (t ∈ held))
        return t ∈ held
    | .bound r =>
      match ← lookUp n with
      | some x => return x.answer
      | none => opening n (r.evaluate held (name depth))

def ask (depth : Nat) (q : Question) : Walk Bool := q.asked.evaluate held (name book held depth)

/-- Asks questions in a row, and goes on where one stops at a name that means nothing. -/
def askAll (depth : Nat) (qs : List Question) : StateT Trail Option (List (Except Name Bool)) :=
  qs.mapM fun q => (ask book held depth q).run

end Walk

/-- What a check does with a name that it opens, where `c` evaluates its requirement. -/
def Check.opening (n : Name) (c : Check Bool) : Check Bool := do
  note n .inProgress
  let met ← c
  tell (.settled n met)
  note n (.settled met)
  return met

/-- The check of questions in a row, each with what it comes to. -/
def Rulebook.askAll (book : Rulebook) (held : Inventory) (qs : List Question) :
    StateT Memo Logged (List (Except Name Bool)) :=
  qs.mapM fun q => (book.ask held q).run

/-! ## What a walk adds -/

def Event.settledName? : Event → Option Name
  | settled n _ => some n
  | _ => none

/-- The names whose resolution is in a log. -/
def settledNames (log : List Event) : List Name := log.filterMap Event.settledName?

/-- From one memo to another one just some names were noted, and at most these have a resolution in the log. -/
structure Adds (memo memo' : Memo) (names : List Name) (log : List Event) : Prop where
  keys : memo'.keys = memo.keys ++ names
  settled : ∀ k, (settledNames log).count k ≤ names.count k

namespace Adds

variable {memo memo' memo'' : Memo} {names names' : List Name} {log log' : List Event} {n : Name}

theorem nothing (memo : Memo) {log : List Event} (h : settledNames log = []) : Adds memo memo [] log :=
  ⟨(List.append_nil _).symm, fun k => by simp [h]⟩

theorem append (h : Adds memo memo' names log) (h' : Adds memo' memo'' names' log') :
    Adds memo memo'' (names ++ names') (log ++ log') where
  keys := by rw [h'.keys, h.keys, List.append_assoc]
  settled k := by
    have hlog := h.settled k
    have hlog' := h'.settled k
    unfold settledNames at hlog hlog' ⊢
    rw [List.filterMap_append, List.count_append, List.count_append]
    exact Nat.add_le_add hlog hlog'

theorem mem_iff (h : Adds memo memo' names log) (k : Name) : k ∈ memo' ↔ k ∈ memo ∨ k ∈ names := by
  rw [← Table.mem_keys, h.keys, List.mem_append, Table.mem_keys]

/-- A name that the memo says nothing about is noted. -/
theorem enter (h : memo.get? n = none) (x : Resolution) : Adds memo (memo.set n x) [n] [] where
  keys := by rw [Table.keys_set, if_neg (Table.get?_eq_none_iff.1 h)]
  settled _ := Nat.zero_le _

/-- A name is settled that was noted before and has no resolution yet. -/
theorem settle (h : Adds (memo.set n .inProgress) memo' names log) (hget : memo.get? n = none) (met : Bool) :
    Adds memo (memo'.set n (.settled met)) (n :: names) (log ++ [.settled n met]) where
  keys := by
    have hn : n ∈ memo' := (h.mem_iff n).2 (.inl (Table.mem_set.2 (.inl rfl)))
    rw [Table.keys_set, if_pos hn]
    exact ((enter hget .inProgress).append h).keys
  settled k := by
    have hlog := h.settled k
    unfold settledNames at hlog ⊢
    rw [List.filterMap_append, List.count_append, List.count_cons]
    show _ + List.count k [n] ≤ _
    rw [List.count_singleton]
    exact Nat.add_le_add_right hlog _

theorem nodup_append (h : Adds memo memo' names log) : (memo.keys ++ names).Nodup := by
  rw [← h.keys]
  exact memo'.nodup

theorem nodup_settledNames (h : Adds memo memo' names log) : (settledNames log).Nodup := by
  have hnames : names.Nodup := (List.nodup_append.1 h.nodup_append).2.1
  refine List.nodup_iff_count_le_one.2 fun k => Nat.le_trans (h.settled k) ?_
  exact List.nodup_iff_count_le_one.1 hnames k

end Adds

/-! ## Walks and checks -/

section

variable {α β : Type}

/-- A walk that began at `trail` comes to an end, and to what `x` does. -/
def Tracks (trail : Trail) (x : Logged (α × Memo)) (y : Option (α × Trail)) : Prop :=
  ∃ names, Adds trail.memo x.value.2 names x.log ∧
    y = some (x.value.1, ⟨x.value.2, trail.log ++ x.log, trail.evaluated ++ names⟩)

variable {trail : Trail}

theorem tracks_pure (a : α) (trail : Trail) : Tracks trail (pure (a, trail.memo)) (pure (a, trail)) :=
  ⟨[], .nothing _ rfl, by simp⟩

theorem Tracks.bind {x : Logged (α × Memo)} {y : Option (α × Trail)} {f : α × Memo → Logged (β × Memo)}
    {g : α × Trail → Option (β × Trail)} (h : Tracks trail x y)
    (hfg : ∀ t : Trail, t.memo = x.value.2 → (∀ k ∈ trail.memo, k ∈ t.memo) →
      Tracks t (f x.value) (g (x.value.1, t))) : Tracks trail (x >>= f) (y >>= g) := by
  obtain ⟨names, hadds, rfl⟩ := h
  obtain ⟨names', hadds', hg⟩ := hfg ⟨_, _, _⟩ rfl fun k hk => (hadds.mem_iff k).2 (.inl hk)
  refine ⟨names ++ names', hadds.append hadds', ?_⟩
  show g _ = _
  rw [hg]
  simp

end

theorem Rulebook.unopened_mono {book : Rulebook} {memo memo' : Memo} (h : ∀ k ∈ memo, k ∈ memo') :
    book.unopened memo' ≤ book.unopened memo := by
  refine List.countP_mono_left fun k _ hk => ?_
  simp only [decide_eq_true_eq] at hk ⊢
  exact fun hm => hk (h k hm)

/-- From memos that say nothing about less than `k` bound names, the walk comes to what the check comes to. -/
def TracksBelow (book : Rulebook) (k : Nat) {α : Type} (c : Check α) (w : Walk α) : Prop :=
  ∀ trail, book.unopened trail.memo < k → Tracks trail (c.run.run trail.memo) (w.run.run trail)

section

variable {book : Rulebook} {held : Inventory} {k : Nat} {n : Name} {α β : Type}

theorem tracksBelow_pure (a : α) : TracksBelow book k (pure a) (pure a) :=
  fun trail _ => tracks_pure (Except.ok a : Except Name α) trail

theorem tracksBelow_throw (n : Name) : TracksBelow book k (throw n : Check α) (throw n) :=
  fun trail _ => tracks_pure (Except.error n : Except Name α) trail

/-- A memo only grows, so what follows says nothing about fewer names either. -/
theorem TracksBelow.bind {c : Check α} {w : Walk α} {f : α → Check β} {g : α → Walk β}
    (h : TracksBelow book k c w) (hfg : ∀ a, TracksBelow book k (f a) (g a)) :
    TracksBelow book k (c >>= f) (w >>= g) := by
  intro trail hk
  rw [run_bind, run_bind]
  refine (h trail hk).bind fun t ht hkept => ?_
  have hk' : book.unopened t.memo < k := Nat.lt_of_le_of_lt (Rulebook.unopened_mono hkept) hk
  rcases hvalue : c.run.run trail.memo |>.value with ⟨e | a, m⟩
  · obtain rfl : t.memo = m := by rw [ht, hvalue]
    exact tracks_pure _ t
  · obtain rfl : t.memo = m := by rw [ht, hvalue]
    exact hfg a t hk'

theorem lifts_tracksBelow (book : Rulebook) (k : Nat) : Lifts (TracksBelow book k (α := Bool)) where
  value b := tracksBelow_pure b
  andThen hx hy := hx.bind fun b => by
    cases b with
    | false => exact tracksBelow_pure false
    | true => exact hy
  orElse hx hy := hx.bind fun b => by
    cases b with
    | false => exact hy
    | true => exact tracksBelow_pure true

/-! ## Names -/

theorem tracksBelow_tell {e : Event} (he : settledNames [e] = []) :
    TracksBelow book k (Check.tell e) (Walk.tell e) := by
  refine fun trail _ => ⟨[], .nothing trail.memo he, ?_⟩
  rw [List.append_nil]
  rfl

/-- What follows may rely on what the memo says about the name. -/
theorem tracksBelow_lookUp {f : Option Resolution → Check α} {g : Option Resolution → Walk α}
    (hknown : ∀ x, TracksBelow book k (f (some x)) (g (some x)))
    (hnew : ∀ trail, book.unopened trail.memo < k → trail.memo.get? n = none →
      Tracks trail ((f none).run.run trail.memo) ((g none).run.run trail)) :
    TracksBelow book k (Check.lookUp n >>= f) (Walk.lookUp n >>= g) := by
  intro trail hk
  show Tracks trail ((f (trail.memo.get? n)).run.run trail.memo) ((g (trail.memo.get? n)).run.run trail)
  cases hget : trail.memo.get? n with
  | some x => exact hknown x trail hk
  | none => exact hnew trail hk hget

/-- The requirement of a token is evaluated at once. -/
theorem tracks_token {trail : Trail} (hget : trail.memo.get? n = none) (b : Bool) :
    Tracks trail ((do Check.note n (.settled b); return b : Check Bool).run.run trail.memo)
      ((do Walk.enter n; Walk.note n (.settled b); return b : Walk Bool).run.run trail) := by
  refine ⟨[n], .enter hget (.settled b), ?_⟩
  show some _ = some (_, Trail.mk _ (trail.log ++ []) _)
  rw [List.append_nil]
  rfl

theorem Check.run_opening (n : Name) (c : Check Bool) (memo : Memo) :
    (opening n c).run.run memo = (c.run.run (memo.set n .inProgress) >>= fun p =>
      match p.1 with
      | .ok met => ⟨(.ok met, p.2.set n (.settled met)), [.settled n met]⟩
      | .error e => ⟨(.error e, p.2), []⟩) := by
  unfold opening
  rw [run_bind]
  show (c >>= _).run.run (memo.set n .inProgress) = _
  rw [run_bind]
  congr 1
  funext p
  rcases p with ⟨e | met, m⟩ <;> rfl

theorem Walk.run_opening (n : Name) (w : Walk Bool) (t : Trail) :
    (opening n w).run.run t = (w.run.run ⟨t.memo.set n .inProgress, t.log, t.evaluated ++ [n]⟩ >>= fun p =>
      match p.1 with
      | .ok met => some (.ok met, ⟨p.2.memo.set n (.settled met), p.2.log ++ [.settled n met], p.2.evaluated⟩)
      | .error e => some (.error e, p.2)) := by
  unfold opening
  rw [run_bind]
  show (w >>= _).run.run ⟨t.memo.set n .inProgress, t.log, t.evaluated ++ [n]⟩ = _
  rw [run_bind]
  congr 1
  funext p
  rcases p with ⟨e | met, t'⟩ <;> rfl

/-- A name that is opened adds itself to what its requirement adds. -/
theorem tracks_opening {trail : Trail} {c : Check Bool} {w : Walk Bool} (hget : trail.memo.get? n = none)
    (h : Tracks ⟨trail.memo.set n .inProgress, trail.log, trail.evaluated ++ [n]⟩
      (c.run.run (trail.memo.set n .inProgress))
      (w.run.run ⟨trail.memo.set n .inProgress, trail.log, trail.evaluated ++ [n]⟩)) :
    Tracks trail ((Check.opening n c).run.run trail.memo) ((Walk.opening n w).run.run trail) := by
  obtain ⟨names, hadds, hrun⟩ := h
  rw [Check.run_opening, Walk.run_opening, hrun]
  rcases hx : c.run.run (trail.memo.set n .inProgress) with ⟨⟨e | met, m⟩, log⟩
  · rw [hx] at hadds
    refine ⟨n :: names, ?_, by simp⟩
    have hall := (Adds.enter hget .inProgress).append hadds
    simpa using hall
  · rw [hx] at hadds
    exact ⟨n :: names, hadds.settle hget met, by simp⟩

/-- A walk that may go deeper than there are names to open decides a name as a check does. -/
theorem tracksBelow_name (book : Rulebook) (held : Inventory) {k depth : Nat} (hk : k ≤ depth) (n : Name) :
    TracksBelow book k (book.checkName held n) (Walk.name book held depth n) := by
  induction k generalizing depth n with
  | zero => exact fun _ h => absurd h (Nat.not_lt_zero _)
  | succ k ih =>
    obtain ⟨d, rfl⟩ : ∃ d, depth = d + 1 := ⟨depth - 1, by omega⟩
    rw [book.checkName_eq, askNameWith, Walk.name]
    refine (tracksBelow_tell rfl).bind fun _ => ?_
    cases hmean : book.meaning n with
    | constant value => exact tracksBelow_pure value
    | undefined => exact tracksBelow_throw n
    | token t => exact tracksBelow_lookUp (fun x => tracksBelow_pure x.answer) fun _ _ hget => tracks_token hget _
    | bound r =>
      refine tracksBelow_lookUp (fun x => tracksBelow_pure x.answer) fun trail hlt hget => tracks_opening hget ?_
      -- inside the name there is one name less to open
      have hbody : TracksBelow book k (book.check held r) (r.evaluate held (Walk.name book held d)) :=
        (lifts_tracksBelow book k).evaluate_same held r fun j _ => ih (Nat.le_of_succ_le_succ hk) j
      exact hbody _ (Nat.lt_of_lt_of_le (book.unopened_mark_lt hmean hget) (Nat.le_of_lt_succ hlt))

/-! ## Questions -/

theorem tracksBelow_ask (book : Rulebook) (held : Inventory) (depth : Nat) (q : Question) :
    TracksBelow book depth (book.ask held q) (Walk.ask book held depth q) := by
  rw [Rulebook.ask_eq]
  exact (lifts_tracksBelow book depth).evaluate_same held q.asked fun n _ =>
    tracksBelow_name book held (Nat.le_refl depth) n

theorem tracks_askAll {depth : Nat} (qs : List Question) (trail : Trail) (h : book.unopened trail.memo < depth) :
    Tracks trail ((book.askAll held qs).run trail.memo) ((Walk.askAll book held depth qs).run trail) := by
  induction qs generalizing trail with
  | nil => exact tracks_pure [] trail
  | cons q qs ih =>
    unfold Rulebook.askAll Walk.askAll
    rw [List.mapM_cons, List.mapM_cons, StateT.run_bind, StateT.run_bind]
    refine (tracksBelow_ask book held depth q trail h).bind fun t ht hkept => ?_
    rw [← ht, StateT.run_bind, StateT.run_bind]
    refine (ih t (Nat.lt_of_le_of_lt (Rulebook.unopened_mono hkept) h)).bind fun t' ht' _ => ?_
    rw [← ht']
    exact tracks_pure _ t'

end

/-- Whatever the memo says, questions in a row come to an end, each with an answer or at a name that means nothing:
a walk that may go deeper than there are bound names the memo says nothing about comes to what checking comes to, with
the same memo and the same log. It evaluates no requirement of a name twice, and none of a name that the memo knew; no
name is resolved twice. -/
theorem askAll_evaluates_once (book : Rulebook) (held : Inventory) (memo : Memo) (qs : List Question) :
    ∃ names : List Name,
      (∀ depth, book.unopened memo < depth → (Walk.askAll book held depth qs).run ⟨memo, [], []⟩ =
        some (((book.askAll held qs).run memo).value.1,
          ⟨((book.askAll held qs).run memo).value.2, ((book.askAll held qs).run memo).log, names⟩)) ∧
      names.Nodup ∧ (∀ n ∈ names, n ∉ memo) ∧ (settledNames ((book.askAll held qs).run memo).log).Nodup := by
  have hdepth : ∀ depth, book.unopened memo < depth → Tracks ⟨memo, [], []⟩ ((book.askAll held qs).run memo)
      ((Walk.askAll book held depth qs).run ⟨memo, [], []⟩) := fun depth h => tracks_askAll qs ⟨memo, [], []⟩ h
  obtain ⟨names, hadds, -⟩ := hdepth _ (Nat.lt_succ_self _)
  obtain ⟨-, hnodup, hfresh⟩ := List.nodup_append.1 hadds.nodup_append
  refine ⟨names, fun depth h => ?_, hnodup, fun n hn hmemo => hfresh n hmemo n hn rfl, hadds.nodup_settledNames⟩
  -- which names they are can be read off the memo afterwards, so the depth makes no difference
  obtain ⟨names', hadds', hwalk⟩ := hdepth depth h
  obtain rfl : names = names' := List.append_cancel_left (hadds.keys.symm.trans hadds'.keys)
  exact hwalk

end Progression
