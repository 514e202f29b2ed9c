/-! # Programs of atomic steps

A program on a shared state is done with a value, or takes one atomic step: from the state it
finds, it leaves a new state, and goes on according to what it found. Programs follow one another
through `Prog.bind`. Run alone, a program takes its steps in turn (`Prog.runAlone`); programs that
share a state may instead take their steps in any interleaving.
-/

namespace Unalias

/-- A program of atomic steps on a state `σ`, ending with an `α`. -/
inductive Prog (σ α : Type) where
  /-- Done, with a value. -/
  | done (a : α)
  /-- One step: the state it finds becomes `eff` of it, and the program goes on as `next` of it. -/
  | step (eff : σ → σ) (next : σ → Prog σ α)

namespace Prog

variable {σ α β : Type}

/-- The program that goes on with `f` from the value of `x`. -/
def bind : Prog σ α → (α → Prog σ β) → Prog σ β
  | done a, f => f a
  | step eff next, f => step eff fun s => (next s).bind f

instance : Monad (Prog σ) where
  pure := done
  bind := bind

/-- One step that gives a value and a new state from the state it finds. -/
def atomic (f : σ → α × σ) : Prog σ α :=
  step (fun s => (f s).2) fun s => done (f s).1

/-- The program run alone from a state: its value and the state it leaves. -/
def runAlone : Prog σ α → σ → α × σ
  | done a, s => (a, s)
  | step eff next, s => runAlone (next s) (eff s)

end Prog

end Unalias
