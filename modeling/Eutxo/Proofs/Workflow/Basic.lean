import Eutxo.Workflow.Basic

/-!
# Runs of workflows

A workflow runs step by step.  These lemmas say what each step does, and for a
run to the end they take its first step off and say what is left to run, and in
which world.
-/

namespace Eutxo.Workflow

variable {σ α β : Type} {world : World σ}

/-- The workflow runs to its end with a result. -/
def Returns (w : Workflow σ α) (world : World σ) (a : α) : Prop :=
  ∃ after, w.run world = (.ok a, after)

theorem run_bind (w : Workflow σ α) (f : α → Workflow σ β) (world : World σ) :
    (w >>= f).run world =
      match w.run world with
      | (.ok a, between) => (f a).run between
      | (.error h, between) => (.error h, between) := by
  simp only [ExceptT.run, bind, ExceptT.bind, ExceptT.mk, StateT.bind, ExceptT.bindCont]
  cases w world with
  | mk result between => cases result <;> rfl

@[simp]
theorem run_pure (a : α) (world : World σ) : (pure a : Workflow σ α).run world = (.ok a, world) :=
  rfl

@[simp]
theorem run_fail (f : Fault) (world : World σ) :
    (fail f : Workflow σ α).run world = (.error (.failed f), world) := rfl

@[simp]
theorem run_log (level : LogLevel) (message : Text) (world : World σ) :
    (log level message).run world =
      (.ok (), { world with log := world.log ++ [⟨level, message⟩] }) := rfl

@[simp]
theorem run_expect_ok (a : α) (world : World σ) :
    (expect (.ok a) : Workflow σ α).run world = (.ok a, world) := rfl

@[simp]
theorem run_attempt_ok (kind : FaultKind) (a : α) (world : World σ) :
    (attempt kind (.ok a) : Workflow σ α).run world = (.ok a, world) := rfl

theorem run_query (ask : σ → Except Halt α × σ) (world : World σ) : (query ask).run world =
    ((ask world.backend).1, { world with backend := (ask world.backend).2 }) := by
  show (query fun _ => ask world.backend).run world = _
  cases ask world.backend with
  | mk answer backend => cases answer <;> rfl

/-- A handler goes on in the world that the step left behind when it failed. -/
theorem run_tryCatch (w : Workflow σ α) (handler : Halt → Workflow σ α) (world : World σ) :
    (tryCatch w handler).run world =
      match w.run world with
      | (.ok a, after) => (.ok a, after)
      | (.error h, after) => (handler h).run after := by
  simp only [tryCatch, tryCatchThe, MonadExceptOf.tryCatch, ExceptT.tryCatch, ExceptT.run,
    ExceptT.mk, bind, StateT.bind]
  cases w world with
  | mk result after => cases result <;> rfl

/-- A chain of two steps runs to its end exactly if both steps do, the second in the world that the
first leaves behind. -/
theorem returns_bind_iff {w : Workflow σ α} {f : α → Workflow σ β} {b : β} :
    Returns (w >>= f) world b ↔
      ∃ a between, w.run world = (.ok a, between) ∧ Returns (f a) between b := by
  rw [Returns, run_bind]
  cases w.run world with
  | mk result between =>
    cases result with
    | error h =>
      constructor
      · nofun
      · rintro ⟨a, after, hrun, -⟩
        cases hrun
    | ok a =>
      constructor
      · intro hrun
        exact ⟨a, between, rfl, hrun⟩
      · rintro ⟨a, after, hfirst, hrest⟩
        cases hfirst
        exact hrest

@[simp]
theorem returns_pure_iff {a b : α} : Returns (pure a) world b ↔ a = b := by
  constructor
  · rintro ⟨after, hrun⟩
    cases hrun
    rfl
  · rintro rfl
    exact ⟨world, rfl⟩

@[simp]
theorem not_returns_fail {f : Fault} {a : α} : ¬ Returns (fail f) world a := by
  rintro ⟨after, hrun⟩
  cases hrun

@[simp]
theorem not_returns_fail_bind {f : Fault} {g : α → Workflow σ β} {b : β} :
    ¬ Returns (fail f >>= g) world b := by
  rintro ⟨after, hrun⟩
  cases hrun

@[simp]
theorem returns_expect_bind_iff {x : Except Fault α} {f : α → Workflow σ β} {b : β} :
    Returns (expect x >>= f) world b ↔ ∃ a, x = .ok a ∧ Returns (f a) world b := by
  rw [returns_bind_iff]
  cases x with
  | error fault =>
    constructor
    · rintro ⟨a, between, hrun, -⟩
      cases hrun
    · nofun
  | ok a =>
    constructor
    · rintro ⟨a, between, hrun, hrest⟩
      cases hrun
      exact ⟨a, rfl, hrest⟩
    · rintro ⟨a, hfirst, hrest⟩
      cases hfirst
      exact ⟨a, world, rfl, hrest⟩

@[simp]
theorem returns_log_bind_iff {level : LogLevel} {message : Text} {f : Unit → Workflow σ β} {b : β} :
    Returns (log level message >>= f) world b ↔
      Returns (f ()) { world with log := world.log ++ [⟨level, message⟩] } b := by
  rw [returns_bind_iff]
  constructor
  · rintro ⟨u, between, hrun, hrest⟩
    cases hrun
    exact hrest
  · intro hrest
    exact ⟨(), _, rfl, hrest⟩

@[simp]
theorem returns_query_bind_iff {ask : σ → Except Halt α × σ} {f : α → Workflow σ β} {b : β} :
    Returns (query ask >>= f) world b ↔ ∃ a, (ask world.backend).1 = .ok a ∧
      Returns (f a) { world with backend := (ask world.backend).2 } b := by
  rw [returns_bind_iff, run_query]
  constructor
  · rintro ⟨a, between, hrun, hrest⟩
    obtain ⟨hanswer, rfl⟩ := Prod.mk.inj hrun
    exact ⟨a, hanswer, hrest⟩
  · rintro ⟨a, hanswer, hrest⟩
    exact ⟨a, _, Prod.ext hanswer rfl, hrest⟩

end Eutxo.Workflow
