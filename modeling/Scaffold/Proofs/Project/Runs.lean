import Scaffold.Project.Removal

/-! # Running operations

An operation is a function of the state: it yields a value or a failure, and the state in which it
ended. Two questions are asked of a run. `Stops` says what a failure and the state that it leaves
have in common, and `Keeps` says how the state of any run, failed or not, is related to the one
before. Each is answered once for every way of composing operations.
-/

namespace Scaffold.Project

variable {σ α β : Type}

/-- An operation on a state that may fail. -/
abbrev Stateful (σ α : Type) := ExceptT Failure (StateM σ) α

namespace Stateful

theorem bind_run (first : Stateful σ α) (second : α → Stateful σ β) (state : σ) :
    (first >>= second).run state =
      match first.run state with
      | (.ok value, next) => (second value).run next
      | (.error failure, next) => (.error failure, next) := by
  rcases ran : first.run state with ⟨failure | value, next⟩ <;>
    simp only [ExceptT.run, bind, ExceptT.bind, ExceptT.mk, StateT.bind, ExceptT.bindCont,
      show first state = _ from ran]
  rfl

theorem bind_run_eq_ok_iff {first : Stateful σ α} {second : α → Stateful σ β} {state last : σ} {value : β} :
    (first >>= second).run state = (.ok value, last) ↔
      ∃ between middle, first.run state = (.ok between, middle) ∧ (second between).run middle = (.ok value, last) := by
  rw [bind_run]
  constructor
  · intro ran
    rcases began : first.run state with ⟨failure | between, middle⟩
    · rw [began] at ran
      cases ran
    · rw [began] at ran
      exact ⟨between, middle, rfl, ran⟩
  · rintro ⟨between, middle, began, ran⟩
    rw [began]
    exact ran

theorem tryCatch_run (body : Stateful σ α) (handler : Failure → Stateful σ α) (state : σ) :
    (tryCatch body handler : Stateful σ α).run state =
      match body.run state with
      | (.ok value, next) => (.ok value, next)
      | (.error failure, next) => (handler failure).run next := by
  rcases ran : body.run state with ⟨failure | value, next⟩ <;>
    simp only [tryCatch, tryCatchThe, MonadExceptOf.tryCatch, ExceptT.tryCatch, ExceptT.run, ExceptT.mk,
      bind, StateT.bind, show body state = _ from ran]
  rfl

/-- Whenever the operation fails, the failure and the state that it leaves satisfy `cause`. -/
def Stops (operation : Stateful σ α) (cause : Failure → σ → Prop) : Prop :=
  ∀ state failure next, operation.run state = (.error failure, next) → cause failure next

/-- Every run, failed or not, ends in a state that is related to the one in which it began. -/
def Keeps (operation : Stateful σ α) (relation : σ → σ → Prop) : Prop :=
  ∀ state outcome next, operation.run state = (outcome, next) → relation state next

section Stops

variable {cause : Failure → σ → Prop}

theorem Stops.pure (value : α) : Stops (pure value : Stateful σ α) cause := by
  intro state failure next ran
  change (Except.ok value, state) = _ at ran
  simp at ran

theorem Stops.throw {failure : Failure} (caused : ∀ state, cause failure state) :
    Stops (throw failure : Stateful σ α) cause := by
  intro state other next ran
  change (Except.error failure, state) = _ at ran
  cases ran
  exact caused state

/-- What would come after a failure does not matter. -/
theorem Stops.throw_bind {failure : Failure} (caused : ∀ state, cause failure state)
    (second : α → Stateful σ β) : Stops (MonadExcept.throw failure >>= second) cause := by
  intro state other next ran
  rw [bind_run] at ran
  cases ran
  exact caused state

theorem Stops.get : Stops (get : Stateful σ σ) cause := by
  intro state failure next ran
  change (Except.ok state, state) = _ at ran
  simp at ran

theorem Stops.modify (alter : σ → σ) : Stops (modify alter : Stateful σ PUnit) cause := by
  intro state failure next ran
  change (Except.ok _, alter state) = _ at ran
  simp at ran

theorem Stops.bind {first : Stateful σ α} {second : α → Stateful σ β}
    (begins : Stops first cause) (goesOn : ∀ value, Stops (second value) cause) :
    Stops (first >>= second) cause := by
  intro state failure next ran
  rw [bind_run] at ran
  rcases outcome : first.run state with ⟨failed | value, middle⟩
  · rw [outcome] at ran
    cases ran
    exact begins state failure next outcome
  · rw [outcome] at ran
    exact goesOn value middle failure next ran

theorem Stops.tryCatch {body : Stateful σ α} {handler : Failure → Stateful σ α}
    {caught : Failure → σ → Prop} (stops : Stops body caught)
    (handled : ∀ failure state, caught failure state → ∀ other next,
      (handler failure).run state = (.error other, next) → cause other next) :
    Stops (tryCatch body handler) cause := by
  intro state failure next ran
  rw [tryCatch_run] at ran
  rcases outcome : body.run state with ⟨failed | value, middle⟩
  · rw [outcome] at ran
    exact handled failed middle (stops state failed middle outcome) failure next ran
  · rw [outcome] at ran
    cases ran

theorem Stops.mono {operation : Stateful σ α} {weaker : Failure → σ → Prop} (stops : Stops operation cause)
    (weaken : ∀ failure state, cause failure state → weaker failure state) : Stops operation weaker :=
  fun state failure next ran => weaken failure next (stops state failure next ran)

end Stops

section Keeps

variable {relation : σ → σ → Prop}

theorem Keeps.modify {alter : σ → σ} (related : ∀ state, relation state (alter state)) :
    Keeps (modify alter : Stateful σ PUnit) relation := by
  intro state outcome next ran
  cases ran
  exact related state

theorem Keeps.pure [Std.Refl relation] (value : α) : Keeps (pure value : Stateful σ α) relation := by
  intro state outcome next ran
  cases ran
  exact Std.Refl.refl state

theorem Keeps.throw [Std.Refl relation] (failure : Failure) : Keeps (throw failure : Stateful σ α) relation := by
  intro state outcome next ran
  cases ran
  exact Std.Refl.refl state

variable [Trans relation relation relation]

theorem Keeps.bind {first : Stateful σ α} {second : α → Stateful σ β}
    (begins : Keeps first relation) (goesOn : ∀ value, Keeps (second value) relation) :
    Keeps (first >>= second) relation := by
  intro state outcome next ran
  rw [bind_run] at ran
  rcases middle : first.run state with ⟨failed | value, reached⟩
  · rw [middle] at ran
    cases ran
    exact begins state _ next middle
  · rw [middle] at ran
    exact Trans.trans (begins state _ reached middle) (goesOn value reached outcome next ran)

theorem Keeps.tryCatch {body : Stateful σ α} {handler : Failure → Stateful σ α}
    (begins : Keeps body relation) (handled : ∀ failure, Keeps (handler failure) relation) :
    Keeps (tryCatch body handler) relation := by
  intro state outcome next ran
  rw [tryCatch_run] at ran
  rcases middle : body.run state with ⟨failed | value, reached⟩
  · rw [middle] at ran
    exact Trans.trans (begins state _ reached middle) (handled failed reached outcome next ran)
  · rw [middle] at ran
    cases ran
    exact begins state _ next middle

end Keeps

end Stateful

end Scaffold.Project
