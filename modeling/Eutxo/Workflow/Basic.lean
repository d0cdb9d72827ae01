import Eutxo.Fault
import Eutxo.Workflow.Config

/-!
# Workflows

A workflow keeps a log and talks to a chain backend.  It may fail with a fault
that its callers have to expect, or be cut short by one that they do not: then
it has died.  Either way the log and the state of the backend stay as they are
at that point.
-/

namespace Eutxo

/-- How much a line of the log matters. -/
inductive LogLevel where
  | debug
  | info
  | warning
  | error
  deriving DecidableEq, Repr

/-- The name of a level. -/
def LogLevel.name : LogLevel → Text
  | .debug => "DEBUG"
  | .info => "INFO"
  | .warning => "WARN"
  | .error => "ERROR"

/-- A line of the log. -/
structure LogLine where
  level : LogLevel
  message : Text
  deriving DecidableEq, Repr

/-- What cuts a workflow short. -/
inductive Crash where
  | fault (f : Fault)
  | config (f : ConfigFault)
  /-- The backend broke down; nothing is known of it but the name of its problem. -/
  | backend (problem : Text)
  deriving Repr

/-- Why a workflow ends without a result. -/
inductive Halt where
  | failed (f : Fault)
  | died (c : Crash)
  deriving Repr

/-- What a workflow changes: the state of the chain backend and the log. -/
structure World (σ : Type) where
  backend : σ
  log : List LogLine := []

/-- A workflow over a chain backend with states in `σ`. -/
abbrev Workflow (σ α : Type) := ExceptT Halt (StateM (World σ)) α

namespace Workflow

variable {σ α : Type}

/-- Runs a workflow from a state of the backend with an empty log. -/
def start (w : Workflow σ α) (backend : σ) : Except Halt α × World σ := w.run ⟨backend, []⟩

/-- Writes a line to the end of the log. -/
def log (level : LogLevel) (message : Text) : Workflow σ Unit :=
  modify fun w => { w with log := w.log ++ [⟨level, message⟩] }

/-- Ends the workflow with a fault that callers have to expect. -/
def fail (f : Fault) : Workflow σ α := throw (.failed f)

/-- A step that callers expect to succeed; its fault cuts the workflow short. -/
def expect (x : Except Fault α) : Workflow σ α :=
  match x with
  | .ok a => return a
  | .error f => throw (.died (.fault f))

/-- A step that callers expect to fail in one way; any other fault cuts the workflow short. -/
def attempt (kind : FaultKind) (x : Except Fault α) : Workflow σ α :=
  match x with
  | .ok a => return a
  | .error f => if f.kind = kind then fail f else throw (.died (.fault f))

/-- Asks the backend, which may change its state. -/
def query (ask : σ → Except Halt α × σ) : Workflow σ α := do
  let w ← get
  let (answer, backend) := ask w.backend
  set { w with backend := backend }
  match answer with
  | .ok a => return a
  | .error h => throw h

/-- The configuration of an environment; without one there is nothing to run. -/
def configure (env : Config.Environment) : Workflow σ Config :=
  match Config.ofEnvironment env with
  | .ok c => return c
  | .error f => throw (.died (.config f))

end Workflow

end Eutxo
