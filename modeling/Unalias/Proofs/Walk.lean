import Unalias.FileSystem.Action
import Unalias.Proofs.RootedPath

/-! # Walks through links

A walk takes a path's pieces in turn from where it starts, and a link met on the way sends it
on through the link's target, with one link fewer left to follow (`FileSystem.walkLinks`). The
place a path leads to, every link followed, is its `spot`.

What a walk ends at is fixed by the pieces it takes: a walk whose last piece is empty has passed
its place as a directory, so it ends at a directory
(`FileSystem.resolve_slash_directory`); a path ending in `/` therefore never leads to a file.
-/

namespace Unalias

namespace FileSystem

variable {fs : FileSystem}

/-- The place a path leads to, every link followed; the empty path where the walk fails. -/
def spot (fs : FileSystem) (p : Path) : Path :=
  match fs.resolve p with
  | .ok a => a
  | .error _ => []

theorem spot_of_resolve {p a : Path} (h : fs.resolve p = .ok a) : fs.spot p = a := by
  simp [spot, h]

theorem walkStep_empty (cur : Path) : walkStep cur [] = .ok cur := by
  simp [walkStep]

section Directory

variable {follow : Path → List Bytes → Except FsError Path} {last : Bool}

/-- Pieces that end with an empty one, walked with a `follow` that keeps to that, end at a
    directory. -/
theorem walkPieces_append_empty
    (hfollow : ∀ c qs a, qs ≠ [] → follow c (qs ++ [[]]) = .ok a → fs.node? a = some .directory) :
    ∀ {cur : Path} {qs : List Bytes} {a : Path}, qs ≠ [] →
      fs.walkPieces follow last cur (qs ++ [[]]) = .ok a → fs.node? a = some .directory
  | _, [], _, hne, _ => absurd rfl hne
  | cur, q :: qs, a, _, h => by
      rw [List.cons_append, walkPieces] at h
      cases hstep : walkStep cur q with
      | error e => simp [hstep, bind, Except.bind] at h
      | ok next =>
          simp only [hstep, bind, Except.bind] at h
          have hrest : (qs ++ [[]]).isEmpty = false := by simp
          split at h
          · rw [hrest, Bool.false_and, if_neg Bool.false_ne_true] at h
            split at h
            · cases h
            · rw [← List.append_assoc] at h
              exact hfollow _ _ _ (by simp [Path.pieces_ne_nil]) h
          · rename_i hdir
            cases qs with
            | nil =>
                rw [List.nil_append, walkPieces, walkStep_empty] at h
                simp only [bind, Except.bind, hdir, walkPieces] at h
                cases h
                exact hdir
            | cons q' qs => exact walkPieces_append_empty hfollow (List.cons_ne_nil q' qs) h
          · rw [hrest, if_neg Bool.false_ne_true] at h
            cases h
          · rw [hrest, if_neg Bool.false_ne_true] at h
            cases h

/-- Pieces that end with an empty one, walked with any number of links left, end at a
    directory. -/
theorem walkLinks_append_empty :
    ∀ (links : Nat) {cur : Path} {qs : List Bytes} {a : Path}, qs ≠ [] →
      fs.walkLinks last links cur (qs ++ [[]]) = .ok a → fs.node? a = some .directory
  | 0, _, _, _, hne, h => walkPieces_append_empty (fun _ _ _ _ h => by cases h) hne h
  | links + 1, _, _, _, hne, h =>
      walkPieces_append_empty (fun _ _ _ hqs h => walkLinks_append_empty links hqs h) hne h

end Directory

/-- A path ending with a slash leads, when it leads anywhere, to a directory. -/
theorem resolve_slash_directory {t a : Path} (h : fs.resolve (t ++ [Path.slash]) = .ok a) :
    fs.node? a = some .directory := by
  unfold resolve walkWith at h
  split at h
  · cases h
  split at h
  · cases h
  split at h
  · cases h
  rw [Path.pieces_append_slash t [], show Path.pieces [] = [[]] from rfl] at h
  exact walkLinks_append_empty _ (Path.pieces_ne_nil t) h

end FileSystem

end Unalias
