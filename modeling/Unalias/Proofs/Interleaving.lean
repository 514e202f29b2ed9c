import Mathlib
import Unalias.Prog

/-! # Programs among others

A program of atomic steps shares its state with other programs, whose steps may come between any
two of its own. Each program is followed beside a local state of its own, and the shared state is
tied to the local states of all the programs by a coupling `M`. A program is sound for a
postcondition (`Prog.Sound`) when each of its steps, from any shared state coupled to its local
state, keeps the coupling once its local state has moved on, and it ends satisfying the
postcondition. A step moves only its own program's local state, so the coupling is all that the
other programs need to stay sound: no separate rely condition is stated.

A program tracks a state function (`Prog.Tracks`) when it ends with the value and the local state
that the function gives. Tracking goes through binds, so a program written once for any monad
tracks its run alone as soon as each of its primitive steps does; the same holds of programs that
may fail (`ExceptT`).
-/

namespace Unalias

namespace Prog

variable {σ τ ι α β ε : Type}

theorem bind_done : ∀ x : Prog σ α, x.bind done = x
  | done _ => rfl
  | step eff next => by simp only [bind, bind_done]

theorem bind_assoc (f : α → Prog σ β) {γ : Type} (g : β → Prog σ γ) :
    ∀ x : Prog σ α, (x.bind f).bind g = x.bind fun a => (f a).bind g
  | done _ => rfl
  | step eff next => by simp only [bind, bind_assoc]

instance : LawfulMonad (Prog σ) :=
  LawfulMonad.mk' _ (fun x => bind_done x) (fun _ _ => rfl) (fun x f g => bind_assoc f g x)

section Sound

variable [DecidableEq ι] (M : σ → (ι → τ) → Prop) (j : ι)

/-- Program `j`, whose local state is `t`, is sound for `post`: from every shared state coupled to
    local states that give it `t`, its step keeps the coupling with its local state moved to `t'`
    and goes on soundly from there; done, its value and local state satisfy `post`. -/
inductive Sound (post : α → τ → Prop) : Prog σ α → τ → Prop
  | done {a : α} {t : τ} : post a t → Sound post (.done a) t
  | step {eff : σ → σ} {next : σ → Prog σ α} {t : τ} (t' : τ)
      (keeps : ∀ s ls, ls j = t → M s ls → M (eff s) (Function.update ls j t'))
      (goes : ∀ s ls, ls j = t → M s ls → Sound post (next s) t') :
      Sound post (.step eff next) t

variable {M j}

theorem Sound.imp {post post' : α → τ → Prop} (himp : ∀ a t, post a t → post' a t)
    {x : Prog σ α} {t : τ} (h : Sound M j post x t) : Sound M j post' x t := by
  induction h with
  | done hpost => exact .done (himp _ _ hpost)
  | step t' keeps _ ih => exact .step t' keeps ih

theorem Sound.bind {post : α → τ → Prop} {post' : β → τ → Prop} {x : Prog σ α}
    {f : α → Prog σ β} {t : τ} (hx : Sound M j post x t)
    (hf : ∀ a t', post a t' → Sound M j post' (f a) t') : Sound M j post' (x.bind f) t := by
  induction hx with
  | done hpost => exact hf _ _ hpost
  | step t' keeps _ ih => exact .step t' keeps ih

/-- Run alone from a coupled shared state, a sound program ends satisfying its postcondition,
    with the coupling kept for its final local state. -/
theorem Sound.runAlone {post : α → τ → Prop} {x : Prog σ α} {t : τ} (h : Sound M j post x t) :
    ∀ s ls, ls j = t → M s ls →
      ∃ t', post (x.runAlone s).1 t' ∧ M (x.runAlone s).2 (Function.update ls j t') := by
  induction h with
  | @done a t hpost =>
      intro s ls hj hM
      refine ⟨t, hpost, ?_⟩
      rwa [← hj, Function.update_eq_self]
  | @step eff next t t' keeps goes ih =>
      intro s ls hj hM
      -- the rest of the run starts from the shared state after the step
      obtain ⟨t'', hpost, hM'⟩ :=
        ih s ls hj hM (eff s) (Function.update ls j t') (Function.update_self j t' ls)
          (keeps s ls hj hM)
      refine ⟨t'', hpost, ?_⟩
      rwa [Function.update_idem] at hM'

end Sound

section Tracks

variable [DecidableEq ι] (M : σ → (ι → τ) → Prop) (j : ι)

/-- Program `j` ends as the state function `xl` ends from its local state `t`. -/
def Tracks (x : Prog σ α) (xl : StateM τ α) (t : τ) : Prop :=
  Sound M j (fun a t' => xl.run t = (a, t')) x t

variable {M j}

theorem Tracks.pure (a : α) (t : τ) : Tracks M j (Pure.pure a) (Pure.pure a) t :=
  Sound.done rfl

theorem Tracks.bind {x : Prog σ α} {xl : StateM τ α} {f : α → Prog σ β} {fl : α → StateM τ β}
    {t : τ} (hx : Tracks M j x xl t)
    (hf : ∀ a t', xl.run t = (a, t') → Tracks M j (f a) (fl a) t') :
    Tracks M j (x >>= f) (xl >>= fl) t :=
  Sound.bind hx fun a t' hrun =>
    (hf a t' hrun).imp fun b t'' h => by
      show (xl >>= fl).run t = (b, t'')
      rw [StateT.run_bind, hrun]
      exact h

/-- One atomic step tracks a state function that it agrees with: from every coupled shared
    state it gives the function's value and keeps the coupling with the function's final state. -/
theorem Tracks.atomic {f : σ → α × σ} {xl : StateM τ α} {t : τ}
    (h : ∀ s ls, ls j = t → M s ls →
      (f s).1 = (xl.run t).1 ∧ M (f s).2 (Function.update ls j (xl.run t).2)) :
    Tracks M j (Prog.atomic f) xl t :=
  .step (xl.run t).2 (fun s ls hj hM => (h s ls hj hM).2)
    fun s ls hj hM => .done (by rw [(h s ls hj hM).1]; rfl)

theorem Tracks.map {x : Prog σ α} {xl : StateM τ α} {t : τ} (g : α → β) (hx : Tracks M j x xl t) :
    Tracks M j (g <$> x) (g <$> xl) t := by
  rw [map_eq_pure_bind, map_eq_pure_bind]
  exact hx.bind fun a t' _ => Tracks.pure (g a) t'

/-! Programs that may fail track their runs alone through the same binds. -/

theorem Tracks.exceptBind {x : ExceptT ε (Prog σ) α} {xl : ExceptT ε (StateM τ) α}
    {f : α → ExceptT ε (Prog σ) β} {fl : α → ExceptT ε (StateM τ) β} {t : τ}
    (hx : Tracks M j x.run xl.run t)
    (hf : ∀ a t', xl.run.run t = (.ok a, t') → Tracks M j (f a).run (fl a).run t') :
    Tracks M j (x >>= f).run (xl >>= fl).run t := by
  rw [ExceptT.run_bind, ExceptT.run_bind]
  refine hx.bind fun r t' hrun => ?_
  cases r with
  | ok a => exact hf a t' hrun
  | error e => exact Tracks.pure _ t'

theorem Tracks.exceptPure (a : α) (t : τ) :
    Tracks M j (Pure.pure a : ExceptT ε (Prog σ) α).run (Pure.pure a : ExceptT ε (StateM τ) α).run t :=
  Tracks.pure _ t

theorem Tracks.exceptThrow (e : ε) (t : τ) :
    Tracks M j (throw e : ExceptT ε (Prog σ) α).run (throw e : ExceptT ε (StateM τ) α).run t :=
  Tracks.pure _ t

theorem Tracks.exceptPureBind {a : α} {f : α → ExceptT ε (Prog σ) β}
    {fl : α → ExceptT ε (StateM τ) β} {t : τ} (hf : Tracks M j (f a).run (fl a).run t) :
    Tracks M j (Pure.pure a >>= f).run (Pure.pure a >>= fl).run t := by
  rw [pure_bind, pure_bind]
  exact hf

theorem Tracks.exceptThrowBind {e : ε} {f : α → ExceptT ε (Prog σ) β}
    {fl : α → ExceptT ε (StateM τ) β} {t : τ} :
    Tracks M j (throw e >>= f).run (throw e >>= fl).run t :=
  Tracks.exceptBind (Tracks.exceptThrow e t) fun _ _ h => by cases h

theorem Tracks.exceptLift {x : Prog σ α} {xl : StateM τ α} {t : τ} (hx : Tracks M j x xl t) :
    Tracks M j (ExceptT.lift x : ExceptT ε (Prog σ) α).run
      (ExceptT.lift xl : ExceptT ε (StateM τ) α).run t := by
  rw [ExceptT.run_lift, ExceptT.run_lift]
  exact hx.map _

theorem Tracks.exceptTryCatch {x : ExceptT ε (Prog σ) α} {xl : ExceptT ε (StateM τ) α}
    {h : ε → ExceptT ε (Prog σ) α} {hl : ε → ExceptT ε (StateM τ) α} {t : τ}
    (hx : Tracks M j x.run xl.run t)
    (hh : ∀ e t', xl.run.run t = (.error e, t') → Tracks M j (h e).run (hl e).run t') :
    Tracks M j (tryCatch x h).run (tryCatch xl hl).run t := by
  rw [ExceptT.run_tryCatch, ExceptT.run_tryCatch]
  refine hx.bind fun r t' hrun => ?_
  cases r with
  | ok a => exact Tracks.pure _ t'
  | error e => exact hh e t' hrun

end Tracks

end Prog

end Unalias
