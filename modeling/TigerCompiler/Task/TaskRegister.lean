import TigerCompiler.Ast.Syntax
import Mathlib.Logic.Relation
import Mathlib.Order.WellFounded
import Mathlib.Data.Finite.Defs

/-!
# `task::TaskRegister`

The options of the command line are tasks, which name the tasks they need.  A request for a task
is a depth-first walk: what the task needs is put into the execution order before the task
itself.  A disjunctive task only needs one of the tasks it names.
-/

namespace TigerCompiler

/-- `task::Task`; `disjunctive` tells a `task::DisjunctiveTask` from the others. -/
structure Task where
  name : Str
  dependencies : List Str := []
  disjunctive : Bool := false
  deriving DecidableEq

namespace Task

/-- `Task::normalize`. -/
def normalize (s : Str) : Str := s.map fun c => if c = '_' then '-' else c

/-- The loop of the constructor over `deps`, `word` being what is read since `start`. -/
def splitDeps (word : Str) : Str → List Str
  | [] => [word]
  | [' '] => [word]
  | ' ' :: cs => word :: splitDeps [] cs
  | c :: cs => splitDeps (word ++ [c]) cs

/-- What is left of a name after a short option such as `h|help`. -/
def withoutShort : Str → Str
  | _ :: '|' :: cs => cs
  | s => s

/-- `Task::Task`: the dependencies are a list of names separated by one space each. -/
def construct (name deps : Str) (disjunctive : Bool) : Task where
  name := withoutShort (normalize name)
  dependencies := if deps = [] then [] else (splitDeps [] deps).map normalize
  disjunctive := disjunctive

/-- `resolve_dependencies`: what the task asks to activate, given the tasks it names that are
already in the order. -/
def resolveDependencies (task : Task) (activeTasks : List Task) : List Str :=
  if task.disjunctive then
    if !activeTasks.isEmpty || task.dependencies.isEmpty then [] else task.dependencies.take 1
  else task.dependencies

end Task

/-- The members of `task::TaskRegister`, and the errors it has reported, each without the name of
the program in front of it. -/
structure TaskRegister where
  taskList : Str → Option Task := fun _ => none
  taskOrder : List Task := []
  errors : List Str := []

namespace TaskRegister

/-- `task_error() << misc::error::error_type::failure << message`. -/
def report (r : TaskRegister) (message : Str) : TaskRegister :=
  { r with errors := r.errors ++ [message] }

/-- `register_task_`. -/
def registerTask (r : TaskRegister) (task : Task) : TaskRegister :=
  match r.taskList task.name with
  | some _ => r.report (": TaskRegister::register_task(".toList ++ task.name ++
      "): task name already registered.\n".toList)
  | none =>
    { r with taskList := fun name => if name = task.name then some task else r.taskList name }

/-- The register once tasks are registered, in that order. -/
def registered (tasks : List Task) : TaskRegister := tasks.foldl registerTask {}

/-- The first loop of `resolve_dependencies`, over the names `task` depends on. -/
def enabledTasks (r : TaskRegister) (task : Task) : List Str → TaskRegister × List Task
  | [] => (r, [])
  | s :: ss =>
    match r.taskList s with
    | none => enabledTasks (r.report (": TaskRegister::resolve_dependencies(\"".toList ++
        task.name ++ "\"): unknown task: \"".toList ++ s ++ "\"\n".toList)) task ss
    | some dep =>
      ((enabledTasks r task ss).1,
        if dep ∈ r.taskOrder then dep :: (enabledTasks r task ss).2
        else (enabledTasks r task ss).2)

/-- The second loop of `resolve_dependencies`: the tasks that are not in the order are enabled. -/
def activate (enable : TaskRegister → Str → Option TaskRegister) (r : TaskRegister) :
    List Str → Option TaskRegister
  | [] => some r
  | s :: ss =>
    match r.taskList s with
    | none => activate enable r ss
    | some dep =>
      if dep ∈ r.taskOrder then activate enable r ss
      else do activate enable (← enable r s) ss

/-- `resolve_dependencies`. -/
def resolveDependencies (enable : TaskRegister → Str → Option TaskRegister) (r : TaskRegister)
    (task : Task) : Option TaskRegister :=
  let (r', enabled) := r.enabledTasks task task.dependencies
  activate enable r' (task.resolveDependencies enabled)

/-- `enable_task`; `none` when the recursion is more than `fuel` calls deep. -/
def enableTask : Nat → TaskRegister → Str → Option TaskRegister
  | 0, _, _ => none
  | fuel + 1, r, name =>
    match r.taskList name with
    | none => some (r.report (": TaskRegister::enable_task(".toList ++ name ++
        "): this task has not been registered.\n".toList))
    | some task => do
      let r' ← resolveDependencies (enableTask fuel) r task
      return { r' with taskOrder := r'.taskOrder ++ [task] }

/-- Successive requests. -/
def enableTasks (fuel : Nat) (r : TaskRegister) : List Str → Option TaskRegister
  | [] => some r
  | name :: names => do enableTasks fuel (← enableTask fuel r name) names

end TaskRegister

end TigerCompiler
