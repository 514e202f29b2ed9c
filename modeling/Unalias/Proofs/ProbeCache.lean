import Unalias.ProbeCache
import Unalias.Proofs.ProbePlan

/-! # The probe cache is transparent

An LRU cache of `cap` paths holds, most recent first, the paths probed last: a hit moves its
path to the front, a miss puts its path there and, when the cache is full, forgets the least
recent one (`lruStep`). A probe cache in front of a fixed existence check remembers exactly those
paths, each with the answer the check gives for it (`ProbeCache.Tracks`). So a probe through the
cache answers what the check answers and asks the check only on a miss (`cachedProbe_run`), and a
probe plan run through the cache ends as it ends uncached, asking the check exactly on the LRU
misses of its probes (`ProbePlan.run_cachedProbe`).

Resolution is a probe plan, so any sequence of resolutions through the cache resolves every
specifier as the check alone does, and asks the check exactly on the probes that miss an LRU
cache of the cache's capacity (`Layout.resolve_cached`).

Jobs that run together share one cache, taken as a library's operations; of those only what the
library documents is used (`ExistsCache.Documented`), which the LRU cache keeps to
(`ProbeCache.lru_documented`).
-/

namespace Unalias

/-- Paths compare lawfully; the cache's membership tests below are decided through this. -/
theorem Path.lawfulBEq : LawfulBEq Path := inferInstance

attribute [local instance] Path.lawfulBEq

/-- The paths an LRU cache of `cap` paths holds after a probe of `p`, most recent first: a hit
    moves `p` to the front; a miss puts it there, evicting the least recent path when full. -/
def lruStep (cap : Nat) (keys : List Path) (p : Path) : List Path :=
  if p ∈ keys then p :: keys.erase p
  else if keys.length < cap then p :: keys
  else p :: keys.dropLast

/-- The probes that miss an LRU cache of `cap` paths holding `keys` at first. -/
def lruMisses (cap : Nat) : List Path → List Path → List Path
  | _, [] => []
  | keys, p :: ps => (if p ∈ keys then [] else [p]) ++ lruMisses cap (lruStep cap keys p) ps

/-- The paths an LRU cache of `cap` paths holding `keys` at first holds after the probes. -/
def lruRun (cap : Nat) : List Path → List Path → List Path
  | keys, [] => keys
  | keys, p :: ps => lruRun cap (lruStep cap keys p) ps

theorem lruStep_nodup (cap : Nat) {keys : List Path} (p : Path) (hk : keys.Nodup) :
    (lruStep cap keys p).Nodup := by
  unfold lruStep
  split
  case isTrue => exact List.nodup_cons.mpr ⟨hk.not_mem_erase, hk.erase p⟩
  case isFalse hp =>
    split
    · exact List.nodup_cons.mpr ⟨hp, hk⟩
    · exact List.nodup_cons.mpr
        ⟨fun h => hp (List.dropLast_subset _ h), hk.sublist (List.dropLast_sublist _)⟩

theorem lruStep_length_le {cap : Nat} {keys : List Path} (p : Path) (hcap : 0 < cap)
    (hk : keys.length ≤ cap) : (lruStep cap keys p).length ≤ cap := by
  unfold lruStep
  split
  case isTrue hp =>
    have := List.length_pos_of_mem hp
    simp only [List.length_cons, List.length_erase_of_mem hp]
    omega
  case isFalse =>
    split
    · simp only [List.length_cons]; omega
    · simp only [List.length_cons, List.length_dropLast]; omega

/-- An existence check that answers as `next` does and records each path it is asked about. -/
def recordingCheck (next : Path → Bool) (p : Path) : StateM (List Path) Bool := do
  modify (· ++ [p])
  pure (next p)

/-- The cache remembers exactly the paths `keys`, most recent first and each once, with the
    answers `next` gives, and no more paths than its capacity, which is positive. -/
structure ProbeCache.Tracks (next : Path → Bool) (keys : List Path) (c : ProbeCache) : Prop where
  keys_eq : c.entries.map Prod.fst = keys
  answers : ∀ e ∈ c.entries, e.2 = next e.1
  nodup : keys.Nodup
  length_le : keys.length ≤ c.capacity
  capacity_pos : 0 < c.capacity

namespace ProbeCache

theorem empty_tracks (next : Path → Bool) (size : Int) : (empty size).Tracks next [] where
  keys_eq := rfl
  answers := by simp [empty]
  nodup := List.nodup_nil
  length_le := Nat.zero_le _
  capacity_pos := by
    show 0 < if size ≤ 0 then 4096 else size.toNat
    split <;> omega

variable {next : Path → Bool} {keys : List Path} {c : ProbeCache} {p : Path}

theorem Tracks.find?_eq (h : c.Tracks next keys) (hp : p ∈ keys) :
    c.entries.find? (·.1 == p) = some (p, next p) := by
  cases hf : c.entries.find? (·.1 == p) with
  | none =>
      obtain ⟨e, he, rfl⟩ := List.mem_map.mp (h.keys_eq ▸ hp)
      exact absurd (by simp) (List.find?_eq_none.mp hf e he)
  | some e =>
      have hkey : e.1 = p := by simpa using List.find?_some hf
      have hanswer := h.answers e (List.mem_of_find?_eq_some hf)
      rw [← hkey, ← hanswer]

theorem Tracks.find?_eq_none (h : c.Tracks next keys) (hp : p ∉ keys) :
    c.entries.find? (·.1 == p) = none := by
  rw [List.find?_eq_none]
  intro e he heq
  apply hp
  rw [← h.keys_eq]
  simp at heq
  exact List.mem_map.mpr ⟨e, he, heq⟩

theorem Tracks.get?_hit (h : c.Tracks next keys) (hp : p ∈ keys) :
    c.get? p =
      (some (next p), { c with entries := (p, next p) :: c.entries.filter (·.1 != p) }) := by
  simp [get?, h.find?_eq hp]

theorem Tracks.get?_miss (h : c.Tracks next keys) (hp : p ∉ keys) : c.get? p = (none, c) := by
  simp [get?, h.find?_eq_none hp]

private theorem keys_filter (entries : List (Path × Bool)) (p : Path) :
    (entries.filter (·.1 != p)).map Prod.fst = (entries.map Prod.fst).filter (· != p) := by
  rw [List.filter_map]
  rfl

/-- A hit moves the path to the front. -/
theorem Tracks.refresh (h : c.Tracks next keys) (hp : p ∈ keys) :
    ({ c with entries := (p, next p) :: c.entries.filter (·.1 != p) } : ProbeCache).Tracks next
      (lruStep c.capacity keys p) := by
  have hkeys : ((p, next p) :: c.entries.filter (·.1 != p)).map Prod.fst = p :: keys.erase p := by
    rw [List.map_cons, keys_filter, h.keys_eq, h.nodup.erase_eq_filter]
  refine ⟨?_, ?_, lruStep_nodup _ p h.nodup, lruStep_length_le p h.capacity_pos h.length_le,
    h.capacity_pos⟩
  · simp only [lruStep, if_pos hp]
    exact hkeys
  · intro e he
    rcases List.mem_cons.mp he with rfl | he
    · rfl
    · exact h.answers e (List.mem_of_mem_filter he)

/-- A miss puts the path in front and forgets the least recent path beyond the capacity. -/
theorem Tracks.put (h : c.Tracks next keys) (hp : p ∉ keys) :
    (c.put p (next p)).Tracks next (lruStep c.capacity keys p) := by
  have hfilter : c.entries.filter (·.1 != p) = c.entries := by
    apply List.filter_eq_self.mpr
    intro e he
    have hkey : e.1 ∈ keys := h.keys_eq ▸ List.mem_map_of_mem he
    simp only [bne_iff_ne, ne_eq]
    rintro rfl
    exact hp hkey
  have hkeys : (c.put p (next p)).entries.map Prod.fst = (p :: keys).take c.capacity := by
    simp [ProbeCache.put, hfilter, List.map_take, h.keys_eq]
  refine ⟨?_, ?_, lruStep_nodup _ p h.nodup, lruStep_length_le p h.capacity_pos h.length_le,
    h.capacity_pos⟩
  · rw [hkeys]
    obtain ⟨k, hk⟩ : ∃ k, c.capacity = k + 1 := ⟨c.capacity - 1, by have := h.capacity_pos; omega⟩
    simp only [lruStep, if_neg hp, hk, List.take_succ_cons]
    split
    · rw [List.take_of_length_le (by omega)]
    · -- a full cache: the taken paths are all but the last
      rw [List.dropLast_eq_take]
      have := h.length_le
      congr 2
      omega
  · intro e he
    simp only [ProbeCache.put, hfilter] at he
    rcases List.mem_cons.mp (List.mem_of_mem_take he) with rfl | he
    · rfl
    · exact h.answers e he

end ProbeCache

/-- A probe through a cache that tracks the check: the check's answer, the check asked only on a
    miss, and the cache moved on as an LRU cache moves. -/
theorem cachedProbe_run {next : Path → Bool} {keys : List Path} {c : ProbeCache}
    (h : c.Tracks next keys) (p : Path) (log : List Path) :
    ∃ c', ((cachedProbe (recordingCheck next) p).run c).run log =
        ((next p, c'), log ++ if p ∈ keys then [] else [p]) ∧
      c'.Tracks next (lruStep c.capacity keys p) ∧ c'.capacity = c.capacity := by
  by_cases hp : p ∈ keys
  · refine ⟨_, ?_, h.refresh hp, rfl⟩
    simp [cachedProbe, cachedCheck, h.get?_hit hp, hp]
    rfl
  · refine ⟨_, ?_, h.put hp, rfl⟩
    simp [cachedProbe, cachedCheck, h.get?_miss hp, hp, recordingCheck]
    rfl

namespace ProbePlan

variable {α : Type}

/-- The outcome of the plan when `answer` answers its questions. -/
def eval (answer : Path → Bool) : ProbePlan α → α
  | done a => a
  | ask p next => (next (answer p)).eval answer

/-- The paths the plan asks about, in order, when `answer` answers. -/
def asked (answer : Path → Bool) : ProbePlan α → List Path
  | done _ => []
  | ask p next => p :: (next (answer p)).asked answer

theorem run_answer {m : Type → Type} [Monad m] [LawfulMonad m] (next : Path → Bool)
    (x : ProbePlan α) : x.run (fun p => (pure (next p) : m Bool)) = pure (x.eval next) := by
  induction x with
  | done a => rfl
  | ask p k ih => simp [run, eval, ih]

theorem run_recordingCheck (next : Path → Bool) (x : ProbePlan α) (log : List Path) :
    (x.run (recordingCheck next)).run log = (x.eval next, log ++ x.asked next) := by
  induction x generalizing log with
  | done a =>
      simp [run, eval, asked]
      rfl
  | ask p k ih =>
      simp only [run, eval, asked, StateT.run_bind]
      simp [recordingCheck, ih]

/-- A plan run through a cache that tracks the check ends as with the check alone, asks the check
    exactly on the LRU misses of its probes, and leaves the cache tracking the LRU state. -/
theorem run_cachedProbe (next : Path → Bool) (x : ProbePlan α) :
    ∀ (c : ProbeCache) (keys log : List Path), c.Tracks next keys →
      ∃ c', ((x.run (cachedProbe (recordingCheck next))).run c).run log =
          ((x.eval next, c'), log ++ lruMisses c.capacity keys (x.asked next)) ∧
        c'.Tracks next (lruRun c.capacity keys (x.asked next)) ∧ c'.capacity = c.capacity := by
  induction x with
  | done a =>
      intro c keys log h
      exact ⟨c, by simp [run, eval, asked, lruMisses]; rfl, by simpa [asked, lruRun] using h, rfl⟩
  | ask p k ih =>
      intro c keys log h
      obtain ⟨c1, hstep, htracks, hcap⟩ := cachedProbe_run h p log
      -- the rest of the plan goes on from the answer, the moved cache and the longer record
      obtain ⟨c2, hrest, htracks2, hcap2⟩ :=
        ih (next p) c1 (lruStep c.capacity keys p) (log ++ if p ∈ keys then [] else [p]) htracks
      refine ⟨c2, ?_, ?_, hcap2.trans hcap⟩
      · simp only [run, eval, asked, StateT.run_bind, hstep]
        rw [hcap, List.append_assoc] at hrest
        exact hrest
      · rw [hcap] at htracks2
        simpa [asked, lruRun] using htracks2

end ProbePlan

namespace Layout

/-- Resolutions of `calls` one after another, with any existence check, are the plan of those
    resolutions run with that check. -/
theorem resolveAll_eq_run {m : Type → Type} [Monad m] [LawfulMonad m] (check : Path → m Bool)
    (l : Layout) (calls : List (Bytes × Path)) :
    calls.mapM (fun call => l.resolve check call.1 call.2) =
      (calls.mapM fun call => l.resolve ProbePlan.probe call.1 call.2).run check := by
  rw [ProbePlan.run_mapM]
  simp only [resolve_eq_run check]

/-- The paths the resolutions of `calls` probe, in order, when `next` answers. -/
def probes (l : Layout) (next : Path → Bool) (calls : List (Bytes × Path)) : List Path :=
  ((calls.mapM fun call => l.resolve (recordingCheck next) call.1 call.2).run []).2

/-- Resolving through a cache of capacity `size` (4096 when `size` is not positive) gives every
    resolution the check alone gives, asks the check exactly on the probes that miss an LRU cache
    of that capacity, and leaves the cache holding that LRU cache's paths. -/
theorem resolve_cached (next : Path → Bool) (size : Int) (l : Layout)
    (calls : List (Bytes × Path)) :
    ∃ c : ProbeCache,
      ((calls.mapM fun call => l.resolve (cachedProbe (recordingCheck next)) call.1 call.2).run
          (ProbeCache.empty size)).run [] =
        ((calls.map fun call => Id.run (l.resolve (fun p => pure (next p)) call.1 call.2), c),
          lruMisses (if size ≤ 0 then 4096 else size.toNat) [] (l.probes next calls)) ∧
      c.entries.map Prod.fst = lruRun (if size ≤ 0 then 4096 else size.toNat) [] (l.probes next calls) := by
  let plan := calls.mapM fun call => l.resolve ProbePlan.probe call.1 call.2
  have hprobes : l.probes next calls = plan.asked next := by
    unfold probes
    rw [resolveAll_eq_run (recordingCheck next), ProbePlan.run_recordingCheck]
    rfl
  have hplain : calls.map (fun call => Id.run (l.resolve (fun p => pure (next p)) call.1 call.2)) =
      plan.eval next := by
    rw [← List.idRun_mapM, resolveAll_eq_run, ProbePlan.run_answer]
    rfl
  obtain ⟨c, hrun, htracks, -⟩ :=
    plan.run_cachedProbe next (ProbeCache.empty size) [] [] (ProbeCache.empty_tracks next size)
  refine ⟨c, ?_, ?_⟩
  · rw [resolveAll_eq_run, hrun, hplain, hprobes]
    rfl
  · rw [hprobes]
    exact htracks.keys_eq

end Layout

/-- What the library documents of an existence cache, and all that is taken of it: a lookup
    answers only what the cache holds and brings in nothing new, an addition holds the answer
    added besides what the cache held, and an empty cache holds nothing. -/
structure ExistsCache.Documented {C : Type} (cache : ExistsCache C) : Prop where
  get?_mem : ∀ c p v, (cache.get? c p).1 = some v → (p, v) ∈ cache.entries c
  get?_entries : ∀ c p, ∀ e ∈ cache.entries (cache.get? c p).2, e ∈ cache.entries c
  add_entries : ∀ c p v, ∀ e ∈ cache.entries (cache.add c p v), e ∈ cache.entries c ∨ e = (p, v)
  empty_entries : ∀ size, cache.entries (cache.empty size) = []

/-- The LRU cache keeps to what an existence cache documents. -/
theorem ProbeCache.lru_documented : ProbeCache.lru.Documented where
  get?_mem c p v h := by
    simp only [ProbeCache.lru, ProbeCache.get?] at h
    split at h
    · rename_i q b hfind
      cases h
      have hq : q = p := by simpa using List.find?_some hfind
      exact hq ▸ List.mem_of_find?_eq_some hfind
    · cases h
  get?_entries c p e he := by
    simp only [ProbeCache.lru, ProbeCache.get?, ProbeCache.entries] at he ⊢
    split at he
    · rename_i q b hfind
      rcases List.mem_cons.mp he with rfl | he
      · have hq : q = p := by simpa using List.find?_some hfind
        exact hq ▸ List.mem_of_find?_eq_some hfind
      · exact List.mem_of_mem_filter he
    · exact he
  add_entries c p v e he := by
    simp only [ProbeCache.lru, ProbeCache.put] at he
    rcases List.mem_cons.mp (List.mem_of_mem_take he) with rfl | he
    · exact .inr rfl
    · exact .inl (List.mem_of_mem_filter he)
  empty_entries _ := rfl

end Unalias
