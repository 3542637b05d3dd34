/-
A pool of tasks.

Tasks wait for a permit, run, and finish.  At each step some waiting task starts, if a permit is
free, or some running task finishes; which of these happens is a choice from outside.  Every order
of finishing that a number of permits allows comes from some choices.
-/

namespace TreeFlow

structure Pool (α : Type) where
  waiting : List α
  running : List α
  /-- The tasks that have finished, in the order of finishing. -/
  finished : List α
deriving DecidableEq, Repr

namespace Pool

variable {α : Type}

def ofTasks (tasks : List α) : Pool α := ⟨tasks, [], []⟩

/-- The number of waiting tasks that can start. -/
def startable (permits : Nat) (p : Pool α) : Nat :=
  if p.running.length < permits then p.waiting.length else 0

def start (p : Pool α) (k : Nat) : Pool α :=
  { p with waiting := p.waiting.eraseIdx k, running := p.running ++ p.waiting[k]?.toList }

def finish (p : Pool α) (k : Nat) : Pool α :=
  { p with running := p.running.eraseIdx k, finished := p.finished ++ p.running[k]?.toList }

/-- One step: of everything that can happen next, what `choice` selects. -/
def step (permits choice : Nat) (p : Pool α) : Pool α :=
  let startable := p.startable permits
  let options := startable + p.running.length
  if options = 0 then p
  else
    let k := choice % options
    if k < startable then p.start k else p.finish (k - startable)

/-- A number of steps, the choice for each by the number of steps left. -/
def advance (permits : Nat) (choices : Nat → Nat) : Nat → Pool α → Pool α
  | 0, p => p
  | steps + 1, p => advance permits choices steps (p.step permits (choices steps))

/-- The tasks in an order of finishing.  Each task takes two steps. -/
def finishingOrder (permits : Nat) (choices : Nat → Nat) (tasks : List α) : List α :=
  (advance permits choices (2 * tasks.length) (ofTasks tasks)).finished

/-- The choices by which tasks start as soon as they can and finish in the order of starting. -/
def inTurn : Nat → Nat → Nat := fun _ _ => 0

end Pool
end TreeFlow
