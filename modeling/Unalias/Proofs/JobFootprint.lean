import Mathlib
import Unalias.Batch
import Unalias.Proofs.Outline
import Unalias.Proofs.CallFrames
import Unalias.Proofs.ProbeCache
import Unalias.Proofs.Decimal

/-! # Where the jobs of a batch write

Job `j` of a batch reads its file and, when it finds new content for it and the batch writes
(`Batch.Setup.Writes`), changes entries at a few places only (`Batch.Setup.Mine`): the place its
file leads to, and the places where it makes its backup and its temporary files
(`Batch.Setup.Own`), whose names it makes up (`Batch.Setup.Made`).

The jobs are kept apart (`Batch.Setup.Apart`) when no two of them change one place, no job reads
a file another writes, and no walk a job or its existence check makes passes a made-up name. A
made-up name then sits only at the end of a walk, so a tree where the jobs have made entries
looks alike, to every walk, to the tree they started from (`FileSystem.Alike`).

Each job is followed beside a tree of its own: the tree it would leave if it ran alone up to
where it is (`Batch.Setup.Local`). The tree the jobs share is coupled to those trees
(`Batch.Setup.Coupled`): at a place of job `j` it holds what `j`'s tree holds, and elsewhere
what the starting tree held. Every call a job makes answers in the shared tree as in its own
tree, and changes both at its own places alike, so the coupling holds after it
(`Batch.Setup.CallOK`).
-/

namespace Unalias

namespace Path


/-- A path with a slash in its last piece is all slashes, so it ends in one. -/
theorem eq_append_slash_of_mem_base {p : Path} (h : slash ∈ base p) :
    ∃ t, p = t ++ [slash] := by
  unfold base at h
  split at h
  · simp [slash, dot] at h
  · dsimp only at h
    split at h
    · rename_i hp htrim
      obtain ⟨x, rest, hx⟩ := List.exists_cons_of_ne_nil (List.reverse_ne_nil_iff.mpr hp)
      rw [hx, List.dropWhile_eq_nil_iff] at htrim
      have hxs : x = slash := by simpa using htrim x List.mem_cons_self
      exact ⟨rest.reverse, by rw [← List.reverse_reverse p, hx, hxs, List.reverse_cons]⟩
    · rw [List.mem_reverse] at h
      have := List.mem_takeWhile_imp h
      simp at this

/-- A path whose last piece is not empty does not end in a slash. -/
theorem getLast?_ne_slash {p : Path} {qs : List Bytes} {n : Bytes} (h : pieces p = qs ++ [n])
    (hn : n ≠ []) : p.getLast? ≠ some slash := by
  intro hlast
  obtain ⟨t, rfl⟩ := List.getLast?_eq_some_iff.mp hlast
  rw [show pieces (t ++ [slash]) = pieces t ++ pieces [] from pieces_append_slash t []] at h
  have hend : ([[]] : List Bytes) = [n] := (List.append_inj' h rfl).2
  exact hn (List.singleton_inj.mp hend).symm

end Path

namespace Batch

open Unalias.Path (rooted Name)
open FileSystem

section Names

/-- The file of a job that reads a regular file has no slash in its name. -/
theorem slash_not_mem_base {fs : FileSystem} {p : Path} {f : StoredFile}
    (h : fs.stat p = .ok (.file f)) : Path.slash ∉ Path.base p := by
  intro hslash
  obtain ⟨t, rfl⟩ := Path.eq_append_slash_of_mem_base hslash
  obtain ⟨hres, hnode⟩ := resolve_of_stat h
  rw [resolve_slash_directory hres] at hnode
  cases hnode

/-- A name of three bytes or more without a slash. -/
theorem name_of_length {x : Bytes} (hx : Path.slash ∉ x) (hlen : 3 ≤ x.length) : Name x := by
  refine ⟨?_, ?_, ?_, hx⟩ <;> rintro rfl <;> simp [Path.dot, Path.parent] at hlen

theorem name_nameFor {file : Path} {stamp : Bytes} (hf : Path.slash ∉ Path.base file)
    (hs : Path.slash ∉ stamp) : Name (Backup.nameFor file stamp) := by
  have hbak : Bytes.ofString ".bak" = [46, 98, 97, 107] := by decide +kernel
  apply name_of_length
  · simp only [Backup.nameFor, hbak, List.mem_append, List.mem_cons, not_or]
    refine ⟨⟨⟨hf, ?_⟩, hs⟩, ?_⟩ <;> simp [Path.slash, Path.dot]
  · simp only [Backup.nameFor, hbak, List.length_append, List.length_cons, List.length_nil]
    omega

theorem name_tempName {file : Path} (hf : Path.slash ∉ Path.base file) (n : UInt32) :
    Name (tempName file n) := by
  have htmp : Bytes.ofString ".tmp" = [46, 116, 109, 112] := by decide +kernel
  apply name_of_length
  · simp only [tempName, tempStem, htmp, List.mem_append, List.mem_cons, not_or]
    refine ⟨⟨⟨⟨?_, hf⟩, ?_⟩, fun h => ?_⟩, ?_⟩
    · simp [Path.slash, Path.dot]
    · simp [Path.slash, Path.dot]
    · have := (Bytes.digit_of_mem_ofNat h).1
      simp [Path.slash] at this
    · simp [Path.slash]
  · simp only [tempName, tempStem, htmp, List.length_append, List.length_cons, List.length_nil]
    omega

end Names

/-- A batch about to run: its settings and names, its files, and the tree it starts from. -/
structure Setup where
  settings : BatchSettings
  naming : Naming
  files : List Path
  fs : FileSystem

namespace Setup

variable (b : Setup)

/-- The file of job `j`. -/
def file (j : Nat) : Path := b.files.getD j []

/-- What job `j` makes of its file in the starting tree, when it can read it. -/
def outcome (j : Nat) : Option FileOutcome :=
  match b.fs.readBytes (b.file j) with
  | .ok content =>
    some ((FileOutcome.compute b.settings.layout ProbePlan.probe (b.file j) content).eval
      b.fs.Exists)
  | .error _ => none

/-- Job `j` writes its file: the batch is no dry run, and the job finds new content for it. -/
def Writes (j : Nat) : Prop :=
  j < b.files.length ∧ b.settings.dryRun = false ∧
    ∃ o, b.outcome j = some o ∧ o.error = none ∧ o.modified = true ∧ o.content.isSome = true

/-- Where the file of job `j` is, every link followed. -/
def place (j : Nat) : Path := b.fs.spot (b.file j)

/-- The backup path of job `j`. -/
def backupPath (j : Nat) : Path := Backup.pathFor (b.file j) (b.naming.stamp j)

/-- The path of the `k`-th temporary file job `j` tries. -/
def tempPath (j k : Nat) : Path :=
  joinTemp (Path.dir (b.file j)) (tempName (b.file j) (b.naming.random j k))

/-- A name job `j` makes up: its backup's, when it keeps one, or one of its temporary files'. -/
def Makes (j : Nat) (x : Bytes) : Prop :=
  b.Writes j ∧ ((b.settings.backup = true ∧ x = Backup.nameFor (b.file j) (b.naming.stamp j)) ∨
    ∃ k < tempTries, x = tempName (b.file j) (b.naming.random j k))

/-- A name some job makes up. -/
def Made (x : Bytes) : Prop := ∃ j, b.Makes j x

/-- A place where job `j` may make an entry: its backup's or one of its temporary files'. -/
def Own (j : Nat) (a : Path) : Prop :=
  b.Writes j ∧ ((b.settings.backup = true ∧ b.fs.walk (b.backupPath j) = .ok a) ∨
    ∃ k < tempTries, b.fs.walk (b.tempPath j k) = .ok a)

/-- A place job `j` may change. -/
def Mine (j : Nat) (a : Path) : Prop := (b.Writes j ∧ a = b.place j) ∨ b.Own j a

/-- What keeps the jobs of a batch apart. -/
structure Apart : Prop where
  /-- The starting tree is a well-formed tree. -/
  tree : b.fs.Tree
  /-- No file's path passes a made-up name. -/
  paths : ∀ j < b.files.length, ∀ x ∈ Path.pieces (b.file j), ¬ b.Made x
  /-- No link points through a made-up name. -/
  links : LinksClear b.Made b.fs
  /-- An entry with a made-up name is a regular file. -/
  made : ∀ ks x, (∀ k ∈ ks ++ [x], Name k) → b.Made x →
    FileOrNone (b.fs.node? (rooted (ks ++ [x])))
  /-- The file a job writes is no other job's file. -/
  files : ∀ i j, b.Writes i → j < b.files.length → (∃ f, b.fs.stat (b.file j) = .ok (.file f)) →
    b.place i = b.place j → i = j
  /-- The file a job writes is not named by a link. -/
  entry : ∀ j, b.Writes j → ∀ a, b.fs.walk (b.file j) = .ok a → ∀ t, b.fs.node? a ≠ some (.symlink t)
  /-- No two jobs make entries at one place. -/
  own : ∀ i j a, b.Own i a → b.Own j a → i = j
  /-- The stamps of backups have no slash. -/
  stamps : ∀ j, b.Writes j → b.settings.backup = true → Path.slash ∉ b.naming.stamp j
  /-- The existence check is never asked about a place where a job makes an entry. -/
  probes : ∀ j < b.files.length, ∀ content, b.fs.readBytes (b.file j) = .ok content →
    ∀ p ∈ (FileOutcome.compute b.settings.layout ProbePlan.probe (b.file j) content).asked
      b.fs.Exists, ∀ a, b.fs.resolve p = .ok a → ∀ i, ¬ b.Own i a

/-- The tree `t` of job `j` alone: the starting tree but at the job's places, where the file it
    writes stays a regular file and its own places hold at most one. -/
structure Local (j : Nat) (t : FileSystem) : Prop where
  cwd : t.cwd = b.fs.cwd
  off : ∀ a, ¬ b.Mine j a → t.node? a = b.fs.node? a
  file : b.Writes j → ∃ f, t.node? (b.place j) = some (.file f)
  own : ∀ a, b.Own j a → FileOrNone (t.node? a)

/-- The state the jobs share coupled to the trees of the jobs alone: the cache remembers true
    answers for the starting tree, and the shared tree holds at each job's places what that job's
    tree holds, and elsewhere what the starting tree held. -/
structure Coupled {C : Type} (cache : ExistsCache C) (w : World C) (ls : Nat → FileSystem) :
    Prop where
  cwd : w.fs.cwd = b.fs.cwd
  cache : ∀ e ∈ cache.entries w.cache, e.2 = b.fs.Exists e.1
  jobs : ∀ j < b.files.length, b.Local j (ls j)
  off : ∀ a, (∀ j, ¬ b.Mine j a) → w.fs.node? a = b.fs.node? a
  mine : ∀ j a, b.Mine j a → w.fs.node? a = (ls j).node? a

/-- An entry job `j` may set: at one of its places, at most a regular file, and a regular file at
    the file it writes. -/
def Allowed (j : Nat) (a : Path) (o : Option Node) : Prop :=
  b.Mine j a ∧ FileOrNone o ∧ (a = b.place j → o ≠ none)

/-- A call of job `j` that answers in the shared tree as in the job's own tree, and keeps the
    coupling once the job's tree has taken the call too. -/
def CallOK {β C : Type} (cache : ExistsCache C) (j : Nat) (c : Call β) : Prop :=
  ∀ w ls, b.Coupled cache w ls → (c w.fs).1 = (c (ls j)).1 ∧
    b.Coupled cache { w with fs := (c w.fs).2 } (Function.update ls j (c (ls j)).2)

/-- A path to a place where job `j` makes entries, through names that are not made up to its last
    piece. -/
structure OwnPath (j : Nat) (p : Path) : Prop where
  pieces : ∃ qs n, Path.pieces p = qs ++ [n] ∧ n ≠ [] ∧ ∀ x ∈ qs, ¬ b.Made x
  own : ∀ a, b.fs.walk p = .ok a → b.Own j a

variable {b}


section Jobs

/-- A job that writes reads a regular file. -/
theorem Writes.stat {j : Nat} (h : b.Writes j) : ∃ f, b.fs.stat (b.file j) = .ok (.file f) := by
  obtain ⟨-, -, o, ho, -⟩ := h
  unfold outcome at ho
  split at ho
  · rename_i content hread
    unfold readBytes at hread
    split at hread
    · exact ⟨_, ‹_›⟩
    · cases hread
    · cases hread
  · cases ho

theorem Writes.lt {j : Nat} (h : b.Writes j) : j < b.files.length := h.1

/-- The place a job writes holds a regular file. -/
theorem Writes.place_file {j : Nat} (h : b.Writes j) :
    b.fs.resolve (b.file j) = .ok (b.place j) ∧ ∃ f, b.fs.node? (b.place j) = some (.file f) := by
  obtain ⟨f, hf⟩ := h.stat
  exact ⟨(resolve_of_stat hf).1, f, (resolve_of_stat hf).2⟩

/-- The file a job writes does not end in a slash. -/
theorem Writes.getLast? {j : Nat} (h : b.Writes j) : (b.file j).getLast? ≠ some Path.slash := by
  intro hlast
  obtain ⟨t, ht⟩ := List.getLast?_eq_some_iff.mp hlast
  obtain ⟨hres, f, hf⟩ := h.place_file
  rw [ht] at hres
  rw [resolve_slash_directory hres] at hf
  cases hf

theorem Own.writes {j : Nat} {a : Path} (h : b.Own j a) : b.Writes j := h.1

theorem Mine.writes {j : Nat} {a : Path} (h : b.Mine j a) : b.Writes j :=
  h.elim (fun hw => hw.1) fun ho => ho.writes

theorem Makes.writes {j : Nat} {x : Bytes} (h : b.Makes j x) : b.Writes j := h.1

end Jobs

namespace Apart

variable (h : b.Apart)
include h

/-- Every made-up name is a name. -/
theorem made_name {x : Bytes} (hx : b.Made x) : Name x := by
  obtain ⟨j, hw, hx⟩ := hx
  obtain ⟨f, hf⟩ := hw.stat
  rcases hx with ⟨hbackup, rfl⟩ | ⟨k, -, rfl⟩
  · exact name_nameFor (slash_not_mem_base hf) (h.stamps j hw hbackup)
  · exact name_tempName (slash_not_mem_base hf) _

/-- No directory of the tree has a made-up name on its path: such an entry is at most a regular
    file, and everything above a directory is a directory. -/
theorem not_made_of_directory {ks : List Bytes} (hks : ∀ k ∈ ks, Name k)
    (hd : b.fs.node? (rooted ks) = some .directory) : ∀ x ∈ ks, ¬ b.Made x := by
  intro x hx hm
  obtain ⟨pre, post, rfl⟩ := List.append_of_mem hx
  have hnames : ∀ k ∈ pre ++ [x], Name k := fun k hk => hks k (by simp at hk ⊢; tauto)
  have hdir : b.fs.node? (rooted (pre ++ [x])) = some .directory := by
    cases post with
    | nil => simpa using hd
    | cons m rest =>
        exact Tree.directory_above h.tree (List.cons_ne_nil m rest) (by simpa using hks)
          (by simpa using hd)
  rcases h.made pre x hnames hm with hnone | ⟨f, hf⟩
  · rw [hnone] at hdir
    cases hdir
  · rw [hf] at hdir
    cases hdir

/-- The working directory lies under names clear of the made-up ones. -/
theorem cwd_clear : ∃ ks, b.fs.cwd = rooted ks ∧ ClearNames b.Made ks := by
  obtain ⟨ks, hks, hnames⟩ := Tree.rooted_of_node? h.tree h.tree.cwd_directory
  have hks' : ∀ k ∈ ks, Name k := Tree.names_of_entryNames hnames
  have hdir : b.fs.node? (rooted ks) = some .directory := hks ▸ h.tree.cwd_directory
  exact ⟨ks, hks, fun k hk => ⟨hks' k hk, h.not_made_of_directory hks' hdir k hk⟩⟩

theorem cwd_names : ∃ ks, b.fs.cwd = rooted ks ∧ ∀ k ∈ ks, Name k := by
  obtain ⟨ks, hks, hclear⟩ := h.cwd_clear
  exact ⟨ks, hks, hclear.names⟩

/-- A job's file leads to a place clear of the made-up names. -/
theorem file_clear {j : Nat} (hj : j < b.files.length) {last : Bool} {a : Path}
    (hw : b.fs.walkWith last (b.file j) = .ok a) : ∃ ks, a = rooted ks ∧ ClearNames b.Made ks :=
  walkWith_clear h.links h.cwd_clear (h.paths j hj) hw

theorem file_pieces {j : Nat} (hj : j < b.files.length) :
    ∀ x ∈ (Path.pieces (b.file j)).dropLast, ¬ b.Made x :=
  fun x hx => h.paths j hj x (List.dropLast_subset _ hx)

/-- A piece that is no name is never made up. -/
theorem not_made_of_not_name {x : Bytes} (hx : ¬ Name x) : ¬ b.Made x :=
  fun hm => hx (h.made_name hm)

/-- The backup path of a job runs through names of its file's directory to the backup's name. -/
theorem pieces_backupPath {j : Nat} (hw : b.Writes j) (hbackup : b.settings.backup = true) :
    ∃ qs, Path.pieces (b.backupPath j) = qs ++ [Backup.nameFor (b.file j) (b.naming.stamp j)] ∧
      ∀ x ∈ qs, ¬ b.Made x := by
  obtain ⟨f, hf⟩ := hw.stat
  obtain ⟨qs, hqs, hmem⟩ := Path.pieces_join_name (d := Path.dir (b.file j))
    (name_nameFor (slash_not_mem_base hf) (h.stamps j hw hbackup))
  refine ⟨qs, hqs, fun x hx => ?_⟩
  by_cases hname : Name x
  · exact h.paths j hw.lt x (Path.mem_pieces_dir (hmem x hx hname) hname)
  · exact h.not_made_of_not_name hname

/-- A temporary path of a job runs through names of its file's directory to the temporary name. -/
theorem pieces_tempPath {j : Nat} (hw : b.Writes j) (k : Nat) :
    ∃ qs, Path.pieces (b.tempPath j k) = qs ++ [tempName (b.file j) (b.naming.random j k)] ∧
      ∀ x ∈ qs, ¬ b.Made x := by
  obtain ⟨f, hf⟩ := hw.stat
  have hn := name_tempName (slash_not_mem_base hf) (b.naming.random j k)
  have hdir : ∀ x ∈ Path.pieces (Path.dir (b.file j)), ¬ b.Made x := by
    intro x hx
    by_cases hname : Name x
    · exact h.paths j hw.lt x (Path.mem_pieces_dir hx hname)
    · exact h.not_made_of_not_name hname
  unfold tempPath joinTemp
  split
  · -- the directory ends with a slash, which the name follows at once
    rename_i hlast
    obtain ⟨d, hd⟩ : ∃ d, Path.dir (b.file j) = d ++ [Path.slash] := by
      exact List.getLast?_eq_some_iff.mp hlast
    refine ⟨Path.pieces d, ?_, fun x hx => hdir x ?_⟩
    · rw [hd, List.append_assoc, List.singleton_append, Path.pieces_append_slash,
        Path.pieces_of_slash_not_mem hn.slash_not_mem]
    · rw [hd, show Path.pieces (d ++ [Path.slash]) = Path.pieces d ++ Path.pieces [] from
        Path.pieces_append_slash d []]
      exact List.mem_append_left _ hx
  · exact ⟨_, by rw [Path.pieces_append_slash, Path.pieces_of_slash_not_mem hn.slash_not_mem],
      hdir⟩

/-- A place where a job makes an entry is a place of a made-up name. -/
theorem own_rooted {j : Nat} {a : Path} (ho : b.Own j a) :
    ∃ ks x, (∀ k ∈ ks ++ [x], Name k) ∧ b.Made x ∧ a = rooted (ks ++ [x]) := by
  have hend : ∀ {p : Path} {x : Bytes} {qs : List Bytes}, b.Made x →
      Path.pieces p = qs ++ [x] → b.fs.walk p = .ok a →
      ∃ ks x, (∀ k ∈ ks ++ [x], Name k) ∧ b.Made x ∧ a = rooted (ks ++ [x]) := by
    intro p x qs hx hp hwalk
    obtain ⟨ks, hks, rfl⟩ :=
      walkWith_last (h.made_name hx) (fun h => by cases h) h.cwd_names hp hwalk
    refine ⟨ks, x, fun k hk => ?_, hx, rfl⟩
    rcases List.mem_append.mp hk with hk | hk
    · exact hks k hk
    · rw [List.mem_singleton.mp hk]
      exact h.made_name hx
  obtain ⟨hw, ⟨hbackup, hwalk⟩ | ⟨k, hk, hwalk⟩⟩ := ho
  · obtain ⟨qs, hqs, -⟩ := h.pieces_backupPath hw hbackup
    exact hend ⟨j, hw, .inl ⟨hbackup, rfl⟩⟩ hqs hwalk
  · obtain ⟨qs, hqs, -⟩ := h.pieces_tempPath hw k
    exact hend ⟨j, hw, .inr ⟨k, hk, rfl⟩⟩ hqs hwalk

/-- No job makes an entry at a place clear of the made-up names. -/
theorem not_own_of_clear {ks : List Bytes} (hks : ClearNames b.Made ks) (j : Nat) :
    ¬ b.Own j (rooted ks) := by
  intro ho
  obtain ⟨ks', x, hnames, hx, heq⟩ := h.own_rooted ho
  rw [Path.rooted_inj hks.names hnames] at heq
  exact (hks x (heq ▸ List.mem_append_right _ (List.mem_singleton_self x))).2 hx

/-- The place a job writes is clear of the made-up names. -/
theorem place_clear {j : Nat} (hw : b.Writes j) :
    ∃ ks, b.place j = rooted ks ∧ ClearNames b.Made ks :=
  h.file_clear hw.lt hw.place_file.1

theorem place_not_own {i j : Nat} (hw : b.Writes j) : ¬ b.Own i (b.place j) := by
  obtain ⟨ks, hks, hclear⟩ := h.place_clear hw
  rw [hks]
  exact h.not_own_of_clear hclear i

/-- No place is one of two jobs' places. -/
theorem mine_unique {i j : Nat} {a : Path} (hi : b.Mine i a) (hj : b.Mine j a) : i = j := by
  rcases hi with ⟨hwi, rfl⟩ | hoi <;> rcases hj with ⟨hwj, hja⟩ | hoj
  · exact h.files i j hwi hwj.lt hwj.stat hja
  · exact absurd hoj (h.place_not_own hwi)
  · rw [hja] at hoi
    exact absurd hoi (h.place_not_own hwj)
  · exact h.own i j a hoi hoj

/-- The place a job's file leads to is a place of no other job. -/
theorem file_end {j : Nat} (hj : j < b.files.length) {a : Path}
    (hr : b.fs.resolve (b.file j) = .ok a) {i : Nat} (hi : b.Mine i a) : i = j := by
  rcases hi with ⟨hwi, rfl⟩ | hoi
  · obtain ⟨f, hf⟩ := hwi.place_file.2
    refine h.files i j hwi hj ⟨f, ?_⟩ (spot_of_resolve hr).symm
    rw [stat, hr]
    simp [bind, Except.bind, hf]
  · obtain ⟨ks, rfl, hclear⟩ := h.file_clear hj hr
    exact absurd hoi (h.not_own_of_clear hclear i)

/-- A place where the file of a job leads is a place of no other job. -/
theorem mine_place {j : Nat} (hj : j < b.files.length) {i : Nat} (hi : b.Mine i (b.place j)) :
    i = j := by
  cases hr : b.fs.resolve (b.file j) with
  | ok a =>
      rw [place, spot_of_resolve hr] at hi
      exact h.file_end hj hr hi
  | error e =>
      -- a file that leads nowhere is placed at the empty path, where no job has a place
      have hnil : b.place j = [] := by simp [place, spot, hr]
      rw [hnil] at hi
      rcases hi with ⟨hwi, hpl⟩ | hoi
      · obtain ⟨ks, hks, -⟩ := h.place_clear hwi
        exact absurd (hpl.trans hks) (Path.rooted_ne_nil ks).symm
      · obtain ⟨ks, x, -, -, heq⟩ := h.own_rooted hoi
        exact absurd heq (Path.rooted_ne_nil _).symm

/-- An entry with a made-up name on its way is at most a regular file. -/
theorem made_fileOrNone {ks : List Bytes} (hks : ∀ k ∈ ks, Name k) (hmade : ∃ k ∈ ks, b.Made k) :
    FileOrNone (b.fs.node? (rooted ks)) := by
  obtain ⟨x, hx, hxm⟩ := hmade
  obtain ⟨pre, post, rfl⟩ := List.append_of_mem hx
  have hnames : ∀ k ∈ (pre ++ [x]) ++ post, Name k := by simpa using hks
  have hfile := h.made pre x (fun k hk => hnames k (List.mem_append_left _ hk)) hxm
  cases post with
  | nil => simpa using hfile
  | cons y rest =>
      -- an entry below the made-up name would need a directory there
      cases hnode : b.fs.node? (rooted (pre ++ x :: y :: rest)) with
      | none => exact .inl rfl
      | some n =>
          have hdir := Tree.directory_above h.tree (List.cons_ne_nil y rest) hnames
            (by simpa using hnode)
          rcases hfile with hnone | ⟨f, hf⟩
          · rw [hnone] at hdir
            cases hdir
          · rw [hf] at hdir
            cases hdir

/-- The walk of a temporary or backup path, which ends at a regular file or at nothing, is the
    same with its end followed. -/
theorem resolve_eq_walk_of_own {j : Nat} {p : Path} (hp : ∀ a, b.fs.walk p = .ok a → b.Own j a) :
    b.fs.resolve p = b.fs.walk p := by
  refine (walk_eq_resolve fun a hw t ht => ?_).symm
  obtain ⟨ks, x, hnames, hx, rfl⟩ := h.own_rooted (hp a hw)
  rcases h.made ks x hnames hx with hnone | ⟨f, hf⟩
  · rw [hnone] at ht
    cases ht
  · rw [hf] at ht
    cases ht

/-- A job that writes walks its file to the place it writes. -/
theorem file_walk {j : Nat} (hw : b.Writes j) : b.fs.walk (b.file j) = .ok (b.place j) := by
  rw [walk_eq_resolve (h.entry j hw)]
  exact hw.place_file.1

/-- The backup path of a job that writes, when backups are kept, leads to a place of its own. -/
theorem backup_ownPath {j : Nat} (hw : b.Writes j) (hbackup : b.settings.backup = true) :
    b.OwnPath j (b.backupPath j) := by
  obtain ⟨qs, hqs, hclear⟩ := h.pieces_backupPath hw hbackup
  exact ⟨⟨qs, _, hqs, (h.made_name ⟨j, hw, .inl ⟨hbackup, rfl⟩⟩).1, hclear⟩,
    fun a ha => ⟨hw, .inl ⟨hbackup, ha⟩⟩⟩

/-- Each temporary path a job that writes tries leads to a place of its own. -/
theorem temp_ownPath {j k : Nat} (hw : b.Writes j) (hk : k < tempTries) :
    b.OwnPath j (b.tempPath j k) := by
  obtain ⟨qs, hqs, hclear⟩ := h.pieces_tempPath hw k
  exact ⟨⟨qs, _, hqs, (h.made_name ⟨j, hw, .inr ⟨k, hk, rfl⟩⟩).1, hclear⟩,
    fun a ha => ⟨hw, .inr ⟨k, hk, ha⟩⟩⟩

end Apart

namespace OwnPath

variable {j : Nat} {p : Path} (hp : b.OwnPath j p)
include hp

theorem dropLast : ∀ x ∈ (Path.pieces p).dropLast, ¬ b.Made x := by
  obtain ⟨qs, n, hqs, -, hclear⟩ := hp.pieces
  rw [hqs, List.dropLast_concat]
  exact hclear

theorem getLast? : p.getLast? ≠ some Path.slash := by
  obtain ⟨qs, n, hqs, hn, -⟩ := hp.pieces
  exact Path.getLast?_ne_slash hqs hn

/-- Followed to its end or not, the path leads to a place of the job. -/
theorem resolve (h : b.Apart) : ∀ a, b.fs.resolve p = .ok a → b.Own j a := by
  rw [h.resolve_eq_walk_of_own hp.own]
  exact hp.own

end OwnPath

section Coupling

variable {C : Type} {cache : ExistsCache C} {j : Nat} {t : FileSystem}

/-- The tree of a job alone looks alike, away from the made-up names, to the starting tree. -/
theorem Local.alike (h : b.Apart) (hl : b.Local j t) : Alike b.Made b.fs t where
  cwd := hl.cwd.symm
  clear ks hks := by
    by_cases hm : b.Mine j (rooted ks)
    · rcases hm with ⟨hw, hpl⟩ | ho
      · -- the file the job writes is a regular file in both trees
        obtain ⟨f, hf⟩ := hw.place_file.2
        obtain ⟨f', hf'⟩ := hl.file hw
        rw [hpl]
        exact .inr ⟨⟨f, hf⟩, ⟨f', hf'⟩⟩
      · exact absurd ho (h.not_own_of_clear hks j)
    · rw [hl.off _ hm]
      exact .inl rfl
  named ks hks hmade := by
    refine ⟨h.made_fileOrNone hks hmade, ?_⟩
    by_cases hm : b.Mine j (rooted ks)
    · rcases hm with ⟨hw, hpl⟩ | ho
      · obtain ⟨ks', hks', hclear⟩ := h.place_clear hw
        rw [hks', Path.rooted_inj hks hclear.names] at hpl
        obtain ⟨x, hx, hxm⟩ := hmade
        exact absurd hxm (hclear x (hpl ▸ hx)).2
      · exact hl.own _ ho
    · rw [hl.off _ hm]
      exact h.made_fileOrNone hks hmade

/-- A walk that passes no made-up name before its end is the same in the tree of a job alone as
    in the starting tree. -/
theorem Local.walkWith_eq (h : b.Apart) (hl : b.Local j t) {p : Path}
    (hp : ∀ x ∈ (Path.pieces p).dropLast, ¬ b.Made x) (last : Bool) :
    t.walkWith last p = b.fs.walkWith last p :=
  (walkWith_alike (hl.alike h) h.links h.cwd_clear hp).symm

/-- The starting tree is the tree of every job alone before it starts. -/
theorem Local.start (h : b.Apart) (j : Nat) : b.Local j b.fs where
  cwd := rfl
  off _ _ := rfl
  file hw := hw.place_file.2
  own a ho := by
    obtain ⟨ks, x, hnames, hx, rfl⟩ := h.own_rooted ho
    exact h.made ks x hnames hx

/-- Changing a job's tree at its places by allowed entries keeps it the tree of the job alone. -/
theorem Local.change (hl : b.Local j t) {t' : FileSystem} {S : Path → Prop} {v : Path → Option Node}
    (hch : Changes t t' S v) (hok : ∀ a, S a → b.Allowed j a (v a)) : b.Local j t' where
  cwd := hch.cwd.trans hl.cwd
  off a ha := by
    rw [hch.outside a fun hS => ha (hok a hS).1]
    exact hl.off a ha
  file hw := by
    by_cases hS : S (b.place j)
    · rw [hch.inside _ hS]
      obtain ⟨-, hfile, hne⟩ := hok _ hS
      exact hfile.resolve_left (hne rfl)
    · rw [hch.outside _ hS]
      exact hl.file hw
  own a ho := by
    by_cases hS : S a
    · rw [hch.inside _ hS]
      exact (hok a hS).2.1
    · rw [hch.outside _ hS]
      exact hl.own a ho

namespace Coupled

variable {w : World C} {ls : Nat → FileSystem}

/-- The shared tree looks alike, away from the made-up names, to the starting tree. -/
theorem alike (h : b.Apart) (hc : b.Coupled cache w ls) : Alike b.Made b.fs w.fs where
  cwd := hc.cwd.symm
  clear ks hks := by
    by_cases hm : ∃ j, b.Mine j (rooted ks)
    · obtain ⟨j, hm⟩ := hm
      have hj : j < b.files.length := by
        rcases hm with ⟨hw, -⟩ | ho
        · exact hw.lt
        · exact ho.writes.lt
      rw [hc.mine j _ hm]
      exact ((hc.jobs j hj).alike h).clear ks hks
    · rw [hc.off _ (not_exists.mp hm)]
      exact .inl rfl
  named ks hks hmade := by
    refine ⟨h.made_fileOrNone hks hmade, ?_⟩
    by_cases hm : ∃ j, b.Mine j (rooted ks)
    · obtain ⟨j, hm⟩ := hm
      have hj : j < b.files.length := by
        rcases hm with ⟨hw, -⟩ | ho
        · exact hw.lt
        · exact ho.writes.lt
      rw [hc.mine j _ hm]
      exact (((hc.jobs j hj).alike h).named ks hks hmade).2
    · rw [hc.off _ (not_exists.mp hm)]
      exact h.made_fileOrNone hks hmade

/-- At a place of no other job, the shared tree holds what job `j`'s tree holds. -/
theorem sees (hc : b.Coupled cache w ls) (hj : j < b.files.length) {a : Path}
    (ha : ∀ i, b.Mine i a → i = j) : w.fs.node? a = (ls j).node? a := by
  by_cases hm : b.Mine j a
  · exact hc.mine j a hm
  · have hnone : ∀ i, ¬ b.Mine i a := fun i hi => hm (ha i hi ▸ hi)
    rw [hc.off a hnone, (hc.jobs j hj).off a hm]

/-- A walk that passes no made-up name before its end is the same in the shared tree, in the tree
    of each job, and in the starting tree. -/
theorem walkWith_eq (h : b.Apart) (hc : b.Coupled cache w ls) (hj : j < b.files.length)
    {p : Path} (hp : ∀ x ∈ (Path.pieces p).dropLast, ¬ b.Made x) (last : Bool) :
    w.fs.walkWith last p = b.fs.walkWith last p ∧ (ls j).walkWith last p = b.fs.walkWith last p :=
  ⟨(walkWith_alike (hc.alike h) h.links h.cwd_clear hp).symm, (hc.jobs j hj).walkWith_eq h hp last⟩

/-- Setting entries at places of job `j` alike in the shared tree and in the job's tree keeps the
    coupling. -/
theorem update (h : b.Apart) (hc : b.Coupled cache w ls) (hj : j < b.files.length)
    {t' fs' : FileSystem} {S : Path → Prop} {v : Path → Option Node}
    (hok : ∀ a, S a → b.Allowed j a (v a)) (hshared : Changes w.fs fs' S v)
    (hlocal : Changes (ls j) t' S v) :
    b.Coupled cache { w with fs := fs' } (Function.update ls j t') where
  cwd := hshared.cwd.trans hc.cwd
  cache := hc.cache
  jobs i hi := by
    by_cases hij : i = j
    · subst hij
      rw [Function.update_self]
      exact (hc.jobs i hi).change hlocal hok
    · rw [Function.update_of_ne hij]
      exact hc.jobs i hi
  off a ha := by
    rw [hshared.outside a fun hS => ha j (hok a hS).1]
    exact hc.off a ha
  mine i a hm := by
    by_cases hij : i = j
    · subst hij
      rw [Function.update_self]
      by_cases hS : S a
      · rw [hshared.inside a hS, hlocal.inside a hS]
      · rw [hshared.outside a hS, hlocal.outside a hS]
        exact hc.mine i a hm
    · have hS : ¬ S a := fun hS => hij (h.mine_unique hm (hok a hS).1)
      rw [Function.update_of_ne hij, hshared.outside a hS]
      exact hc.mine i a hm

/-- The batch starts coupled: every job's tree is the starting tree, and the cache is empty. -/
theorem start (h : b.Apart) (hdoc : cache.Documented) (size : Int) :
    b.Coupled cache ⟨b.fs, cache.empty size⟩ fun _ => b.fs where
  cwd := rfl
  cache e he := by
    rw [hdoc.empty_entries] at he
    cases he
  jobs j _ := Local.start h j
  off _ _ := rfl
  mine _ _ _ := rfl

/-- A lookup in the cache keeps the coupling. -/
theorem lookup (hdoc : cache.Documented) (hc : b.Coupled cache w ls) (p : Path) :
    b.Coupled cache { w with cache := (cache.get? w.cache p).2 } ls :=
  { hc with cache := fun e he => hc.cache e (hdoc.get?_entries _ _ e he) }

/-- Adding the starting tree's answer to the cache keeps the coupling. -/
theorem remember (hdoc : cache.Documented) (hc : b.Coupled cache w ls) {p : Path} {v : Bool}
    (hv : v = b.fs.Exists p) : b.Coupled cache { w with cache := cache.add w.cache p v } ls :=
  { hc with
    cache := fun e he => by
      rcases hdoc.add_entries _ _ _ e he with he | rfl
      · exact hc.cache e he
      · exact hv }

/-- The shared tree answers an existence check as the starting tree, for a path that leads to no
    place where a job makes an entry. -/
theorem exists_eq (h : b.Apart) (hc : b.Coupled cache w ls) {p : Path}
    (hp : ∀ a, b.fs.resolve p = .ok a → ∀ i, ¬ b.Own i a) : w.fs.Exists p = b.fs.Exists p := by
  have hagree : SameOk (b.fs.resolve p) (w.fs.resolve p) := walkWith_agree (hc.alike h) h.cwd_clear p
  unfold FileSystem.Exists stat
  cases hr : b.fs.resolve p with
  | error e =>
      cases hw : w.fs.resolve p with
      | error e' => rfl
      | ok a =>
          have hb : b.fs.resolve p = .ok a := (hagree a).mpr hw
          rw [hr] at hb
          cases hb
  | ok a =>
      have hw : w.fs.resolve p = .ok a := (hagree a).mp hr
      simp only [hw, bind, Except.bind]
      by_cases hm : ∃ i, b.Mine i a
      · obtain ⟨i, ⟨hwi, rfl⟩ | ho⟩ := hm
        · -- a file some job writes is a regular file in both trees
          obtain ⟨f, hf⟩ := hwi.place_file.2
          obtain ⟨f', hf'⟩ := (hc.jobs i hwi.lt).file hwi
          rw [hc.mine i _ (.inl ⟨hwi, rfl⟩), hf, hf']
        · exact absurd ho (hp a hr i)
      · rw [hc.off a (not_exists.mp hm)]

end Coupled

/-- A call that sets the same allowed entries in the shared tree as in job `j`'s tree, and answers
    alike there, keeps the coupling. -/
theorem callOK_of_same (h : b.Apart) (hj : j < b.files.length) {β : Type} {c : Call β}
    (hsame : ∀ w ls, b.Coupled cache w ls → SameCall c (ls j) w.fs (b.Allowed j)) :
    b.CallOK cache j c := by
  intro w ls hc
  obtain ⟨hanswer, S, v, hok, hlocal, hshared⟩ := hsame w ls hc
  exact ⟨hanswer.symm, hc.update h hj hok hshared hlocal⟩

end Coupling

section Calls

/-! Each call a job makes keeps the coupling, given where its paths lead in the starting tree. -/

variable {C : Type} {cache : ExistsCache C} {j : Nat} (h : b.Apart) (hj : j < b.files.length)
  {p : Path} (hp : ∀ x ∈ (Path.pieces p).dropLast, ¬ b.Made x)
include h hj hp

/-- A call that only looks at what a path leads to, where no other job changes anything. -/
theorem callOK_of_stat {β : Type} {c : Call β} (hkeep : ∀ fs, (c fs).2 = fs)
    (hanswer : ∀ fs fs' : FileSystem, fs.stat p = fs'.stat p → (c fs).1 = (c fs').1)
    (hend : ∀ a, b.fs.resolve p = .ok a → ∀ i, b.Mine i a → i = j) : b.CallOK cache j c := by
  refine callOK_of_same h hj fun w ls hc => SameCall.of_answer (hkeep _) (hkeep _) (hanswer _ _ ?_)
  obtain ⟨hw, hl⟩ := hc.walkWith_eq h hj hp true
  exact stat_same (hl.trans hw.symm) fun a ha => (hc.sees hj (hend a (hl.symm.trans ha))).symm

theorem callOK_stat (hend : ∀ a, b.fs.resolve p = .ok a → ∀ i, b.Mine i a → i = j) :
    b.CallOK cache j (Call.stat p) :=
  callOK_of_stat h hj hp (fun _ => rfl) (fun _ _ hs => hs) hend

theorem callOK_readFile (hend : ∀ a, b.fs.resolve p = .ok a → ∀ i, b.Mine i a → i = j) :
    b.CallOK cache j (Call.readFile p) :=
  callOK_of_stat h hj hp (fun _ => rfl) (fun _ _ hs => by simp only [Call.readFile, readFile, hs])
    hend

theorem callOK_readBytes (hend : ∀ a, b.fs.resolve p = .ok a → ∀ i, b.Mine i a → i = j) :
    b.CallOK cache j (Call.readBytes p) :=
  callOK_of_stat h hj hp (fun _ => rfl)
    (fun _ _ hs => by simp only [Call.readBytes, readBytes, hs]) hend

/-- A write to a path that leads to a place of the job. -/
theorem callOK_writeFile (hslash : p.getLast? ≠ some Path.slash)
    (hend : ∀ a, b.fs.resolve p = .ok a → b.Mine j a) (content : Bytes) (perm : Nat) :
    b.CallOK cache j (Call.writeFile p content perm) := by
  refine callOK_of_same h hj fun w ls hc => ?_
  obtain ⟨hw, hl⟩ := hc.walkWith_eq h hj hp true
  refine (writeFile_same hslash content perm (hl.trans hw.symm)
    fun a ha => (hc.mine j a (hend a (hl.symm.trans ha))).symm).imp ?_
  rintro a o ⟨ha, f, rfl⟩
  exact ⟨hend a (hl.symm.trans ha), .inr ⟨f, rfl⟩, fun _ => Option.some_ne_none _⟩

/-- Making a file at a path that leads to a place of the job. -/
theorem callOK_createExclusive (hend : ∀ a, b.fs.walk p = .ok a → b.Mine j a) (perm : Nat) :
    b.CallOK cache j (Call.createExclusive p perm) := by
  refine callOK_of_same h hj fun w ls hc => ?_
  obtain ⟨hw, hl⟩ := hc.walkWith_eq h hj hp false
  refine (createExclusive_same perm (hl.trans hw.symm)
    fun a ha => (hc.mine j a (hend a (hl.symm.trans ha))).symm).imp ?_
  rintro a o ⟨ha, f, rfl⟩
  exact ⟨hend a (hl.symm.trans ha), .inr ⟨f, rfl⟩, fun _ => Option.some_ne_none _⟩

/-- Setting the permissions of a path that leads to a place of the job. -/
theorem callOK_chmod (hend : ∀ a, b.fs.resolve p = .ok a → b.Mine j a) (mode : Nat) :
    b.CallOK cache j (Call.chmod p mode) := by
  refine callOK_of_same h hj fun w ls hc => ?_
  obtain ⟨hw, hl⟩ := hc.walkWith_eq h hj hp true
  refine (chmod_same mode (hl.trans hw.symm)
    fun a ha => (hc.mine j a (hend a (hl.symm.trans ha))).symm).imp ?_
  rintro a o ⟨ha, f, rfl⟩
  exact ⟨hend a (hl.symm.trans ha), .inr ⟨f, rfl⟩, fun _ => Option.some_ne_none _⟩

/-- Removing what a path names, at a place where the job makes entries. -/
theorem callOK_remove (hend : ∀ a, b.fs.walk p = .ok a → b.Own j a) :
    b.CallOK cache j (Call.remove p) := by
  refine callOK_of_same h hj fun w ls hc => ?_
  obtain ⟨hw, hl⟩ := hc.walkWith_eq h hj hp false
  have hown : ∀ a, (ls j).walk p = .ok a → b.Own j a := fun a ha => hend a (hl.symm.trans ha)
  refine (remove_same (hl.trans hw.symm) (fun a ha => (hc.mine j a (.inr (hown a ha))).symm)
    fun a ha hdir => ?_).imp ?_
  · rcases (hc.jobs j hj).own a (hown a ha) with hnone | ⟨f, hf⟩
    · rw [hnone] at hdir
      cases hdir
    · rw [hf] at hdir
      cases hdir
  · rintro a o ⟨ha, rfl⟩
    have ho := hown a ha
    exact ⟨.inr ho, .inl rfl, fun hpl => absurd (hpl ▸ ho) (h.place_not_own ho.writes)⟩

/-- Renaming a path that leads to a place where the job makes entries over the file it writes. -/
theorem callOK_rename {dst : Path} (hsrc : ∀ a, b.fs.walk p = .ok a → b.Own j a)
    (hdp : ∀ x ∈ (Path.pieces dst).dropLast, ¬ b.Made x)
    (hdst : ∀ a, b.fs.walk dst = .ok a → b.Writes j ∧ a = b.place j) :
    b.CallOK cache j (Call.rename p dst) := by
  refine callOK_of_same h hj fun w ls hc => ?_
  obtain ⟨hw, hl⟩ := hc.walkWith_eq h hj hp false
  obtain ⟨hdw, hdl⟩ := hc.walkWith_eq h hj hdp false
  have hown : ∀ a, (ls j).walk p = .ok a → b.Own j a := fun a ha => hsrc a (hl.symm.trans ha)
  have hfile : ∀ a, (ls j).walk dst = .ok a → b.Writes j ∧ a = b.place j :=
    fun a ha => hdst a (hdl.symm.trans ha)
  refine (rename_same (hl.trans hw.symm) (hdl.trans hdw.symm)
    (fun a ha => (hc.mine j a (.inr (hown a ha))).symm)
    (fun a ha => (hc.mine j a (.inl (hfile a ha))).symm)).imp ?_
  rintro q o (⟨hq, rfl⟩ | ⟨hq, a, n, ha, hn, rfl⟩)
  · have ho := hown q hq
    exact ⟨.inr ho, .inl rfl, fun hpl => absurd (hpl ▸ ho) (h.place_not_own ho.writes)⟩
  · -- the entry moved is the job's temporary file, a regular file
    have hfile' : FileOrNone (some n) := hn ▸ (hc.jobs j hj).own a (hown a ha)
    exact ⟨.inl (hfile q hq), hfile', fun _ => Option.some_ne_none _⟩

end Calls

end Setup

end Batch

end Unalias
