import Unalias.Path

/-! # Remembered existence checks

Resolution asks whether the same candidate files exist again and again. An existence check can
ask a cache first and the file system only on a miss, adding the answer (`cachedCheck`); the
cache is a library's, taken as its operations (`ExistsCache`).

The library used is an LRU cache (`ProbeCache`), which remembers the latest answers, most recent
first, up to a capacity; a capacity of zero or below stands for 4096. Looking a path up makes it
the most recent; a new answer goes in front and pushes the least recent one out when the cache is
full. Because the file system does not change during a run, a remembered answer is the answer the
check would give again.
-/

namespace Unalias

/-- An existence cache as its library gives it. -/
structure ExistsCache (C : Type) where
  /-- The answer remembered for a path, if any; the lookup may reorder the cache. -/
  get? : C → Path → Option Bool × C
  /-- The cache with an answer added. -/
  add : C → Path → Bool → C
  /-- The answers the cache holds. -/
  entries : C → List (Path × Bool)
  /-- An empty cache of a size. -/
  empty : Int → C

/-- An existence check that asks `check` only for paths `lookup` finds no answer for, and then
    adds the answer with `remember`. -/
def cachedCheck {m : Type → Type} [Monad m] (lookup : Path → m (Option Bool))
    (remember : Path → Bool → m Unit) (check : Path → m Bool) (p : Path) : m Bool := do
  match ← lookup p with
  | some b => pure b
  | none =>
    let b ← check p
    remember p b
    pure b

/-- Remembered existence answers, most recent first. -/
structure ProbeCache where
  /-- How many answers are kept. -/
  capacity : Nat
  /-- The answers, most recent first. -/
  entries : List (Path × Bool)
  deriving Repr

namespace ProbeCache

/-- The capacity used when none, or one below 1, is asked for. -/
def defaultCapacity : Nat := 4096

/-- An empty cache of the given capacity. -/
def empty (size : Int) : ProbeCache :=
  ⟨if size ≤ 0 then defaultCapacity else size.toNat, []⟩

/-- The remembered answer for a path, which becomes the most recent. -/
def get? (c : ProbeCache) (p : Path) : Option Bool × ProbeCache :=
  match c.entries.find? (·.1 == p) with
  | some (_, b) => (some b, { c with entries := (p, b) :: c.entries.filter (·.1 != p) })
  | none => (none, c)

/-- Remembers an answer as the most recent, forgetting the least recent beyond the capacity. -/
def put (c : ProbeCache) (p : Path) (b : Bool) : ProbeCache :=
  { c with entries := ((p, b) :: c.entries.filter (·.1 != p)).take c.capacity }

/-- The LRU cache as an existence cache. -/
def lru : ExistsCache ProbeCache := ⟨get?, put, entries, empty⟩

end ProbeCache

/-- An existence check that asks `check` only for paths the LRU cache does not remember. -/
def cachedProbe {m : Type → Type} [Monad m] (check : Path → m Bool) (p : Path) :
    StateT ProbeCache m Bool :=
  cachedCheck (fun p => modifyGet (·.get? p)) (fun p b => modify (·.put p b)) (fun p => check p) p

end Unalias
