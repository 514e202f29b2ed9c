import Mathlib
import Unalias.Outcome

/-! # Probe plans

Resolving a specifier asks whether files exist and goes on by the answers. A probe plan writes
such a computation out as a tree: it is done with a value, or it asks whether a path exists and
goes on with the answer. Resolution and the outcome of a file are written for any monad and any
existence check; taken in the plan monad with the check that only asks, they are plans whose run
with any check, in any lawful monad, is the computation with that check
(`Layout.resolve_eq_run`, `FileOutcome.compute_eq_run`).

A property of every outcome a plan can reach (`ProbePlan.Always`) therefore holds whatever the
existence checks answer: a file system, a cache in front of one, or anything else.
-/

namespace Unalias

/-- A computation that asks whether paths exist, each answer choosing how it goes on. -/
inductive ProbePlan (α : Type) where
  /-- Done, with a value. -/
  | done (a : α)
  /-- Ask whether `path` exists and go on with the answer. -/
  | ask (path : Path) (next : Bool → ProbePlan α)

namespace ProbePlan

/-- The plan that goes on with `f` from each outcome of `x`. -/
def bind {α β : Type} : ProbePlan α → (α → ProbePlan β) → ProbePlan β
  | done a, f => f a
  | ask p next, f => ask p fun b => (next b).bind f

instance : Monad ProbePlan where
  pure := done
  bind := bind

theorem bind_done {α : Type} : ∀ x : ProbePlan α, x.bind done = x
  | done _ => rfl
  | ask p next => by simp only [bind, bind_done]

theorem bind_bind {α β γ : Type} (f : α → ProbePlan β) (g : β → ProbePlan γ) :
    ∀ x : ProbePlan α, (x.bind f).bind g = x.bind fun a => (f a).bind g
  | done _ => rfl
  | ask p next => by simp only [bind, bind_bind]

instance : LawfulMonad ProbePlan :=
  LawfulMonad.mk' _ (fun x => bind_done x) (fun _ _ => rfl) (fun x f g => bind_bind f g x)

/-- Ask whether a path exists, and answer what was heard. -/
def probe (p : Path) : ProbePlan Bool := ask p done

/-- The plan carried out in a monad, each question put to `check`. -/
def run {α : Type} {m : Type → Type} [Monad m] (check : Path → m Bool) : ProbePlan α → m α
  | done a => pure a
  | ask p next => check p >>= fun b => (next b).run check

section Run

variable {m : Type → Type} [Monad m] (check : Path → m Bool)

@[simp] theorem run_pure {α : Type} (a : α) : (pure a : ProbePlan α).run check = pure a := rfl

variable [LawfulMonad m]

@[simp] theorem run_bind {α β : Type} (x : ProbePlan α) (f : α → ProbePlan β) :
    (x >>= f).run check = x.run check >>= fun a => (f a).run check := by
  induction x with
  | done a => simp [run, Bind.bind, ProbePlan.bind]
  | ask p next ih =>
      show (ProbePlan.bind (ask p next) f).run check = _
      simp only [ProbePlan.bind, run, LawfulMonad.bind_assoc]
      congr 1
      funext b
      exact ih b

@[simp] theorem run_probe (p : Path) : (probe p).run check = check p := by
  simp [probe, run]

theorem run_forIn {α β : Type} (xs : List α) (init : β) (f : α → β → ProbePlan (ForInStep β)) :
    (forIn xs init f).run check = forIn xs init (fun x b => (f x b).run check) := by
  induction xs generalizing init with
  | nil => rfl
  | cons x xs ih =>
      simp only [List.forIn_cons, run_bind]
      congr 1
      funext r
      cases r with
      | done b => rfl
      | yield b => exact ih b

theorem run_mapM {α β : Type} (f : α → ProbePlan β) :
    ∀ xs : List α, (xs.mapM f).run check = xs.mapM (fun x => (f x).run check)
  | [] => rfl
  | x :: xs => by simp only [List.mapM_cons, run_bind, run_pure, run_mapM f xs]

end Run

/-- Every outcome the plan can reach satisfies `P`, whatever the answers to its questions. -/
def Always {α : Type} (P : α → Prop) : ProbePlan α → Prop
  | done a => P a
  | ask _ next => ∀ b, (next b).Always P

namespace Always

variable {α β : Type} {P : β → Prop} {Q : α → Prop}

theorem pure {a : β} (h : P a) : (Pure.pure a : ProbePlan β).Always P := h

theorem of_true : ∀ x : ProbePlan α, x.Always fun _ => True
  | done _ => trivial
  | ask _ next => fun b => of_true (next b)

theorem bind {x : ProbePlan α} {f : α → ProbePlan β} (hx : x.Always Q)
    (hf : ∀ a, Q a → (f a).Always P) : (x >>= f).Always P := by
  induction x with
  | done a => exact hf a hx
  | ask p next ih => exact fun b => ih b (hx b)

theorem imp {x : ProbePlan α} {Q' : α → Prop} (himp : ∀ a, Q a → Q' a) (hx : x.Always Q) :
    x.Always Q' := by
  induction x with
  | done a => exact himp a hx
  | ask p next ih => exact fun b => ih b (hx b)

/-- Plans run one after another for the items of a list end with values related item by item. -/
theorem mapM {f : α → ProbePlan β} {R : α → β → Prop} :
    ∀ xs : List α, (∀ x ∈ xs, (f x).Always (R x)) → (xs.mapM f).Always (List.Forall₂ R xs)
  | [], _ => List.Forall₂.nil
  | x :: xs, h => by
      rw [List.mapM_cons]
      refine bind (h x (by simp)) fun y hy => ?_
      refine bind (mapM xs fun x' hx' => h x' (by simp [hx'])) fun ys hys => ?_
      exact List.Forall₂.cons hy hys

end Always

end ProbePlan

/-- What a resolution promises about the specifier asked for: it records it, an alias takes only
    a specifier its stem starts, and a module found gives a specifier starting with a dot. -/
def Resolution.Answers (specifier : Bytes) (r : Resolution) : Prop :=
  r.requested = specifier ∧ (r.Matched = true → specifier ≠ []) ∧
    (r.Matched = true → r.Resolved = true → r.specifier.head? = some Path.dot)

theorem relativeSpecifier_head (fromDir target : Path) :
    (relativeSpecifier fromDir target).head? = some Path.dot := by
  have hdot : (Bytes.ofString "./").head? = some Path.dot := by decide +kernel
  unfold relativeSpecifier
  dsimp only
  split
  · assumption
  · rw [List.head?_append, hdot]
    rfl

theorem AliasTable.match?_stem {table : AliasTable} {specifier : Bytes} {e : AliasEntry}
    (h : table.match? specifier = some e) : e.stem <+: specifier := by
  simpa using List.find?_some h

namespace Layout

variable {m : Type → Type} [Monad m] [LawfulMonad m] (check : Path → m Bool)

theorem lookup_eq_run (module : Path) :
    lookup check module = (lookup ProbePlan.probe module).run check := by
  simp only [lookup, ProbePlan.run_bind, ProbePlan.run_forIn, ProbePlan.run_probe,
    apply_ite (ProbePlan.run check), ProbePlan.run_pure]
  congr 1
  funext found
  split
  · rfl
  · congr 1
    funext r
    rcases r with ⟨_ | _, _⟩ <;> rfl

theorem firstModule_eq_run (tail : Bytes) : ∀ dirs,
    firstModule check tail dirs = (firstModule ProbePlan.probe tail dirs).run check
  | [] => rfl
  | dir :: dirs => by
      simp only [firstModule, ProbePlan.run_bind, ← lookup_eq_run]
      congr 1
      funext found
      cases found with
      | some p => rfl
      | none => exact firstModule_eq_run tail dirs

/-- Resolution with any existence check is the resolution plan run with that check. -/
theorem resolve_eq_run (l : Layout) (specifier : Bytes) (outputFile : Path) :
    l.resolve check specifier outputFile =
      (l.resolve ProbePlan.probe specifier outputFile).run check := by
  unfold resolve
  cases l.table.match? specifier with
  | none => rfl
  | some e =>
      simp only [ProbePlan.run_bind, ← firstModule_eq_run]
      congr 1
      funext found
      cases found <;> rfl

/-- Whatever the existence checks answer, a resolution answers the specifier it was asked for. -/
theorem resolve_answers (l : Layout) (specifier : Bytes) (outputFile : Path) :
    (l.resolve ProbePlan.probe specifier outputFile).Always (Resolution.Answers specifier) := by
  unfold resolve
  cases hm : l.table.match? specifier with
  | none =>
      exact ProbePlan.Always.pure ⟨rfl, by simp [Resolution.Matched], by simp [Resolution.Matched]⟩
  | some e =>
      -- the stem starts the specifier, so a stem that holds bytes leaves it non-empty
      have hne : (!e.stem.isEmpty) = true → specifier ≠ [] := by
        intro hs hnil
        obtain ⟨t, ht⟩ := AliasTable.match?_stem hm
        rw [hnil] at ht
        simp [(List.append_eq_nil_iff.mp ht).1] at hs
      refine ProbePlan.Always.bind (ProbePlan.Always.of_true _) fun found _ => ?_
      cases found with
      | some mf => exact ProbePlan.Always.pure ⟨rfl, hne, fun _ _ => relativeSpecifier_head _ _⟩
      | none => exact ProbePlan.Always.pure ⟨rfl, hne, by simp [Resolution.Resolved]⟩

end Layout

/-- The outcome of a file with any existence check is the outcome plan run with that check. -/
theorem FileOutcome.compute_eq_run {m : Type → Type} [Monad m] [LawfulMonad m]
    (check : Path → m Bool) (l : Layout) (path : Path) (content : Bytes) :
    FileOutcome.compute l check path content =
      (FileOutcome.compute l ProbePlan.probe path content).run check := by
  unfold FileOutcome.compute
  simp only [apply_ite (ProbePlan.run check), ProbePlan.run_pure, ProbePlan.run_bind,
    ProbePlan.run_mapM, Layout.resolve_eq_run check]

end Unalias
