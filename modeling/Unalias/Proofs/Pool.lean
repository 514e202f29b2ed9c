import Mathlib
import Unalias.Batch
import Unalias.Proofs.Interleaving

/-! # Every schedule of a pool

The jobs of a pool are sound for one coupling of the shared state with their local states, and
job `j` ends with the value `r j` and the local state `tf j` (`Pool.Ends`). Whatever the schedule
of picks, and wherever it stops, the pool's values are then the jobs' values, each once, and the
final shared state is coupled to the jobs' final local states (`Pool.run_sound`).

The invariant (`Pool.Inv`) follows the jobs as they move from waiting to running to done: the
shared state stays coupled, every job not done is sound from its current local state, and every
job done has settled on its final local state. A step of one job changes only its own local
state, and the jobs' numbers are distinct, so the others are left sound.
-/

namespace Unalias

open scoped List

namespace Pool

variable {σ τ α : Type}

/-- Starting waiting jobs moves them to the running ones and keeps their order. -/
theorem fill_append (w : Nat) :
    ∀ (running waiting : List (Nat × Prog σ α)),
      (fill w running waiting).1 ++ (fill w running waiting).2 = running ++ waiting
  | running, [] => by simp [fill]
  | running, j :: rest => by
      unfold fill
      split
      · rw [fill_append w (running ++ [j]) rest]
        simp
      · rfl

/-- In a list of numbered jobs with distinct numbers, a job put in the place of job `i` is the
    only one numbered `i`; every other job was there before. -/
theorem mem_set_of_nodup {l : List (Nat × Prog σ α)} (hl : (l.map (·.1)).Nodup) {k : Nat}
    (hk : k < l.length) {x : Prog σ α} {jq : Nat × Prog σ α}
    (h : jq ∈ l.set k (l[k].1, x)) : jq = (l[k].1, x) ∨ (jq ∈ l ∧ jq.1 ≠ l[k].1) := by
  obtain ⟨m, hm, rfl⟩ := List.getElem_of_mem h
  by_cases hmk : m = k
  · subst hmk
    exact .inl (by simp)
  · have hm' : m < l.length := by simpa using hm
    rw [List.getElem_set_ne (Ne.symm hmk)]
    refine .inr ⟨List.getElem_mem hm', fun heq => hmk ?_⟩
    have hm1 : m < (l.map (·.1)).length := by simpa using hm'
    have hk1 : k < (l.map (·.1)).length := by simpa using hk
    exact (@List.Nodup.getElem_inj_iff _ _ hl m hm1 k hk1).mp (by simpa using heq)

variable (M : σ → (Nat → τ) → Prop) (r : Nat → α) (tf : Nat → τ)

/-- Job `j` ends with the value `r j` and the local state `tf j`. -/
def Ends (j : Nat) (a : α) (t : τ) : Prop := a = r j ∧ t = tf j

/-- A pool on its way through the jobs `ids`, with local states `ls` and the jobs `done` done. -/
structure Inv (ids : List Nat) (p : Pool σ α) (ls : Nat → τ) (done : List Nat) : Prop where
  coupled : M p.world ls
  sound : ∀ jq ∈ p.running ++ p.waiting, Prog.Sound M jq.1 (Ends r tf jq.1) jq.2 (ls jq.1)
  finished : p.finished = done.map r
  settled : ∀ j ∈ done, ls j = tf j
  covers : List.Perm ((p.running ++ p.waiting).map (·.1) ++ done) ids
  nodup : ids.Nodup

variable {M r tf}

/-- Jobs run alone one after another end as each of them ends alone; the local states of other
    jobs are left as they were. -/
theorem drain_sound :
    ∀ (jobs : List (Nat × Prog σ α)) (s : σ) (ls : Nat → τ), M s ls →
      (∀ jq ∈ jobs, Prog.Sound M jq.1 (Ends r tf jq.1) jq.2 (ls jq.1)) → (jobs.map (·.1)).Nodup →
      (drain jobs s).1 = (jobs.map (·.1)).map r ∧
        ∃ ls', M (drain jobs s).2 ls' ∧ (∀ j ∈ jobs.map (·.1), ls' j = tf j) ∧
          ∀ j ∉ jobs.map (·.1), ls' j = ls j
  | [], s, ls, hM, _, _ => ⟨rfl, ls, hM, by simp, fun _ _ => rfl⟩
  | (i, x) :: rest, s, ls, hM, hsound, hnodup => by
      rw [List.map_cons] at hnodup
      have hnodup' := List.nodup_cons.mp hnodup
      -- the first job ends as it ends alone, and the others are untouched by it
      obtain ⟨t, ⟨hval, hfin⟩, hM'⟩ := (hsound (i, x) List.mem_cons_self).runAlone s ls rfl hM
      have hrest : ∀ jq ∈ rest, Prog.Sound M jq.1 (Ends r tf jq.1) jq.2
          (Function.update ls i t jq.1) := by
        intro jq hjq
        have hne : jq.1 ≠ i := fun h => hnodup'.1 (List.mem_map.mpr ⟨jq, hjq, h⟩)
        rw [Function.update_of_ne hne]
        exact hsound jq (List.mem_cons_of_mem _ hjq)
      obtain ⟨hvals, ls', hM'', hsettled, hothers⟩ :=
        drain_sound rest (x.runAlone s).2 _ hM' hrest hnodup'.2
      refine ⟨by simp [drain, hval, hvals], ls', hM'', fun j hj => ?_, fun j hj => ?_⟩
      · rw [List.map_cons] at hj
        rcases List.mem_cons.mp hj with rfl | hj'
        · rw [hothers j hnodup'.1, Function.update_self, hfin]
        · exact hsettled j hj'
      · rw [List.map_cons] at hj
        have hji : j ≠ i := fun h => hj (h ▸ List.mem_cons_self)
        rw [hothers j fun h => hj (List.mem_cons_of_mem _ h), Function.update_of_ne hji]

namespace Inv

variable {ids : List Nat} {p : Pool σ α} {ls : Nat → τ} {done : List Nat}

theorem nodup_all (h : Inv M r tf ids p ls done) :
    ((p.running ++ p.waiting).map (·.1) ++ done).Nodup :=
  h.covers.nodup_iff.mpr h.nodup

/-- A running job's number is no other job's, whether running, waiting or done. -/
theorem ne_of_running (h : Inv M r tf ids p ls done) {k : Nat} (hk : k < p.running.length) :
    (∀ jq ∈ p.waiting, jq.1 ≠ p.running[k].1) ∧ (∀ j ∈ done, j ≠ p.running[k].1) ∧
      ((p.running.map (·.1)).Nodup) := by
  have hall := h.nodup_all
  rw [List.map_append, List.nodup_append, List.nodup_append] at hall
  obtain ⟨⟨hrun, -, hrw⟩, -, hdone⟩ := hall
  have hmem : p.running[k].1 ∈ p.running.map (·.1) := List.mem_map_of_mem (List.getElem_mem hk)
  refine ⟨fun jq hjq => (hrw _ hmem _ (List.mem_map_of_mem hjq)).symm, fun j hj => ?_, hrun⟩
  exact (hdone _ (List.mem_append_left _ hmem) j hj).symm

end Inv

/-- One pick keeps the invariant: a running job that is done joins the jobs done, and a step of a
    running job moves its own local state only. -/
theorem tick_inv {ids : List Nat} {p : Pool σ α} {ls : Nat → τ} {done : List Nat} (w pick : Nat)
    (h : Inv M r tf ids p ls done) : ∃ ls' done', Inv M r tf ids (p.tick w pick) ls' done' := by
  unfold tick
  dsimp only
  split
  · exact ⟨ls, done, h⟩
  · rename_i i a heq
    obtain ⟨hk, hjob⟩ := List.getElem?_eq_some_iff.mp heq
    have hends := h.sound _ (List.mem_append_left _ (hjob ▸ List.getElem_mem hk))
    rw [← hjob] at hends
    obtain ⟨ha, hls⟩ : a = r i ∧ ls i = tf i := by
      rw [hjob] at hends
      cases hends with
      | done hpost => exact hpost
    -- the job done leaves the running jobs and joins the jobs done
    have hperm : List.Perm (p.running.map (·.1)) (i :: (p.running.eraseIdx (pick % p.running.length)).map (·.1)) := by
      have := ((List.getElem_cons_eraseIdx_perm hk).map (·.1)).symm
      rwa [List.map_cons, hjob] at this
    refine ⟨ls, done ++ [i], ⟨h.coupled, fun jq hjq => ?_, ?_, ?_, ?_, h.nodup⟩⟩
    · rw [fill_append] at hjq
      rcases List.mem_append.mp hjq with hjq | hjq
      · exact h.sound jq (List.mem_append_left _ (List.mem_of_mem_eraseIdx hjq))
      · exact h.sound jq (List.mem_append_right _ hjq)
    · simp [h.finished, ha]
    · intro j hj
      rcases List.mem_append.mp hj with hj | hj
      · exact h.settled j hj
      · rw [List.mem_singleton.mp hj, hls]
    · refine List.Perm.trans ?_ h.covers
      rw [fill_append]
      calc (p.running.eraseIdx (pick % p.running.length) ++ p.waiting).map (·.1) ++ (done ++ [i])
          ~ i :: ((p.running.eraseIdx (pick % p.running.length) ++ p.waiting).map (·.1) ++
              done) := by
            rw [← List.append_assoc]
            exact List.perm_append_comm
        _ = (i :: (p.running.eraseIdx (pick % p.running.length)).map (·.1)) ++
              p.waiting.map (·.1) ++ done := by simp
        _ ~ (p.running ++ p.waiting).map (·.1) ++ done := by
            rw [List.map_append]
            exact List.Perm.append_right _ (List.Perm.append_right _ hperm.symm)
  · rename_i i eff next heq
    obtain ⟨hk, hjob⟩ := List.getElem?_eq_some_iff.mp heq
    have hi : p.running[pick % p.running.length].1 = i := by rw [hjob]
    obtain ⟨hwaiting, hdone, hrun⟩ := h.ne_of_running hk
    rw [hi] at hwaiting hdone
    have hsound := h.sound _ (List.mem_append_left _ (List.getElem_mem hk))
    rw [hjob] at hsound
    dsimp only at hsound
    cases hsound with
    | step t' keeps goes =>
      refine ⟨Function.update ls i t', done,
        ⟨keeps p.world ls rfl h.coupled, fun jq hjq => ?_, h.finished, fun j hj => ?_, ?_, h.nodup⟩⟩
      · dsimp only at hjq
        rcases List.mem_append.mp hjq with hjq | hjq
        · rw [← hi] at hjq
          rcases mem_set_of_nodup hrun hk hjq with rfl | ⟨hjq, hne⟩
          · dsimp only
            rw [hi, Function.update_self]
            exact goes p.world ls rfl h.coupled
          · rw [hi] at hne
            rw [Function.update_of_ne hne]
            exact h.sound jq (List.mem_append_left _ hjq)
        · rw [Function.update_of_ne (hwaiting jq hjq)]
          exact h.sound jq (List.mem_append_right _ hjq)
      · rw [Function.update_of_ne (hdone j hj)]
        exact h.settled j hj
      · -- the job keeps its number, so the numbers of the jobs are as before
        have hsame : (p.running.set (pick % p.running.length) (i, next p.world)).map (·.1) =
            p.running.map (·.1) := by
          have hk' : pick % p.running.length < (p.running.map (·.1)).length := by simpa using hk
          have hget : (p.running.map (·.1))[pick % p.running.length] = i := by simp [hi]
          rw [List.map_set, show (i, next p.world).1 = i from rfl, ← hget, List.set_getElem_self]
        simpa [List.map_append, hsame] using h.covers

/-- Whatever the schedule, a pool ends with its jobs' values, each once, and with its shared state
    coupled to local states on which every job has settled. -/
theorem run_sound {ids : List Nat} (w : Nat) :
    ∀ (picks : List Nat) (p : Pool σ α) (ls : Nat → τ) (done : List Nat),
      Inv M r tf ids p ls done →
        ∃ order, order ~ ids ∧ (p.run w picks).1 = order.map r ∧
          ∃ ls', M (p.run w picks).2 ls' ∧ ∀ j ∈ ids, ls' j = tf j
  | [], p, ls, done, h => by
      have hall := h.nodup_all
      rw [List.nodup_append] at hall
      obtain ⟨hvals, ls', hM, hsettled, hothers⟩ :=
        drain_sound (p.running ++ p.waiting) p.world ls h.coupled h.sound hall.1
      refine ⟨done ++ (p.running ++ p.waiting).map (·.1), List.perm_append_comm.trans h.covers,
        by simp [run, h.finished, hvals], ls', hM, fun j hj => ?_⟩
      -- a job left running or waiting settles in the drain; a job done had settled before
      rcases List.mem_append.mp (h.covers.symm.subset hj) with hj | hj
      · exact hsettled j hj
      · rw [hothers j fun hj' => hall.2.2 _ hj' _ hj rfl]
        exact h.settled j hj
  | pick :: picks, p, ls, done, h => by
      obtain ⟨ls', done', h'⟩ := tick_inv w pick h
      exact run_sound w picks _ ls' done' h'

/-- A pool started on jobs that are sound from their local states, with distinct numbers. -/
theorem start_inv (w : Nat) {s : σ} {ls : Nat → τ} {jobs : List (Nat × Prog σ α)} (hM : M s ls)
    (hsound : ∀ jq ∈ jobs, Prog.Sound M jq.1 (Ends r tf jq.1) jq.2 (ls jq.1))
    (hnodup : (jobs.map (·.1)).Nodup) : Inv M r tf (jobs.map (·.1)) (start w s jobs) ls [] where
  coupled := hM
  sound := fun jq hjq => hsound jq (by rwa [start, fill_append, List.nil_append] at hjq)
  finished := rfl
  settled := by simp
  covers := by simp [start, fill_append]
  nodup := hnodup

end Pool

end Unalias
