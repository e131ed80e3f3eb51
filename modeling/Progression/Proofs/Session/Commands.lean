import Progression.Proofs.Evaluation.Run
import Progression.Session.Ranking

/-!
# Commands on a session

What a command answers on a session and the session after it, step by step. A scope gives the inventory back however
its body ends, and changes nothing else that the body does not change (`Command.on_inScope`).
-/

namespace Progression

namespace Command

variable {α β : Type}

/-- What a command answers on a session, and the session after it. -/
def on (c : Command α) (s : Session) : Except Failure α × Session := (c.runOn s).value

@[simp] theorem on_pure (a : α) (s : Session) : (pure a : Command α).on s = (.ok a, s) := rfl

theorem on_bind (c : Command α) (f : α → Command β) (s : Session) :
    (c >>= f).on s = match c.on s with
      | (.ok a, s') => (f a).on s'
      | (.error e, s') => (.error e, s') := by
  show ((c >>= f).run.run s).value = _
  rw [value_run_bind]
  show _ = match (c.run.run s).value with | (.ok a, s') => _ | (.error e, s') => _
  rcases (c.run.run s).value with ⟨e | a, s'⟩ <;> rfl

@[simp] theorem on_get (s : Session) : (get : Command Session).on s = (.ok s, s) := rfl

@[simp] theorem on_modify (f : Session → Session) (s : Session) : (modify f : Command Unit).on s = (.ok (), f s) := rfl

@[simp] theorem on_ask (q : Session → Query α) (s : Session) : (ask q).on s = ((q s).answer, s) := rfl

@[simp] theorem on_tell (e : Event) (s : Session) : (tell e).on s = (.ok (), s) := rfl

theorem on_tryCatch (c : Command α) (h : Failure → Command α) (s : Session) :
    (tryCatch c h).on s = match c.on s with
      | (.ok a, s') => (.ok a, s')
      | (.error e, s') => (h e).on s' := by
  have hrun : (tryCatch c h).run.run s = (c.run.run s >>= fun p =>
      match p.1 with
      | .ok a => pure (.ok a, p.2)
      | .error e => (h e).run.run p.2) := by
    show (ExceptT.tryCatch c h).run.run s = _
    simp only [ExceptT.tryCatch, ExceptT.run_mk]
    rw [StateT.run_bind]
    congr 1
    funext p
    rcases p with ⟨e | a, s'⟩ <;> rfl
  show ((tryCatch c h).run.run s).value = _
  rw [hrun, Logged.value_bind]
  show _ = match (c.run.run s).value with | (.ok a, s') => _ | (.error e, s') => _
  rcases (c.run.run s).value with ⟨e | a, s'⟩ <;> rfl

/-! ## Commands that come to an end -/

theorem on_bind_eq_ok {c : Command α} {f : α → Command β} {s t : Session} {b : β} :
    (c >>= f).on s = (.ok b, t) ↔ ∃ a s', c.on s = (.ok a, s') ∧ (f a).on s' = (.ok b, t) := by
  rw [on_bind]
  rcases c.on s with ⟨e | a, s'⟩
  · simp
  · constructor
    · exact fun h => ⟨a, s', rfl, h⟩
    · rintro ⟨a', s'', ha, h⟩
      cases ha
      exact h

theorem on_bind_of_ok {c : Command α} {f : α → Command β} {s t : Session} {a : α} (h : c.on s = (.ok a, t)) :
    (c >>= f).on s = (f a).on t := by
  rw [on_bind, h]

theorem on_ask_eq_ok {q : Session → Query α} {s t : Session} {a : α} :
    (ask q).on s = (.ok a, t) ↔ (q s).answer = .ok a ∧ t = s := by
  rw [on_ask, Prod.mk.injEq, eq_comm (a := s)]

/-- Writing events one after another changes nothing. -/
theorem on_forIn_tell (e : α → Event) (l : List α) (s : Session) :
    (forIn l PUnit.unit fun a _ => do
      tell (e a)
      return ForInStep.yield PUnit.unit : Command PUnit).on s = (.ok PUnit.unit, s) := by
  induction l with
  | nil => rfl
  | cons a l ih =>
    rw [List.forIn_cons, on_bind, on_bind, on_tell]
    exact ih

end Command

@[simp] theorem on_changeScope (saved : Inventory) (f : Scope → Scope) (s : Session) :
    (Session.changeScope saved f).on s = (.ok (), { s with inventory := (f (s.scope saved)).current }) := rfl

/-- A scope gives the inventory back, whether its body answers or fails. -/
theorem on_inScope {α : Type} (body : Inventory → Command α) (s : Session) :
    (Session.inScope body).on s = (((body s.inventory).on s).1,
      { ((body s.inventory).on s).2 with inventory := s.inventory }) := by
  unfold Session.inScope
  simp only [Command.on_bind, Command.on_get, Command.on_tryCatch, Scope.saved_enter]
  rcases (body s.inventory).on s with ⟨e | a, s'⟩ <;> rfl

end Progression
