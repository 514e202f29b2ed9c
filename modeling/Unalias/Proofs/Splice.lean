import Unalias.Proofs.Edits

/-! # Splices

A splice cuts content into gaps and, between them, the regions to be replaced, each region given
as it is and as it becomes. Its old content holds the regions as they are and its new content as
they become; swapping the two sides gives the splice that leads back.

Applying the splice's edits to its old content gives its new content, and the offset of each
replacement there is where the swapped splice's edit stands (`Splice.applyEdits_edits`). The
swapped splice's edits, applied to the new content, therefore give the old content back.
-/

namespace Unalias

/-- Content cut at the regions to be replaced. -/
inductive Splice where
  /-- The content after the last region. -/
  | tail (rest : Bytes)
  /-- A gap, a region as it is and as it becomes, and the rest. -/
  | region (gap old new : Bytes) (rest : Splice)

namespace Splice

/-- The content with every region as it is. -/
def old : Splice → Bytes
  | tail t => t
  | region g v _ r => g ++ v ++ r.old

/-- The content with every region as it becomes. -/
def new : Splice → Bytes
  | tail t => t
  | region g _ w r => g ++ w ++ r.new

/-- The splice that leads back. -/
def swap : Splice → Splice
  | tail t => tail t
  | region g v w r => region g w v r.swap

/-- The edits that make the splice, when its old content starts at offset `base`. -/
def edits (base : Nat) : Splice → List Edit
  | tail _ => []
  | region g v w r => ⟨(base + g.length : Nat), v, w⟩ :: r.edits (base + g.length + v.length)

@[simp] theorem swap_old (sp : Splice) : sp.swap.old = sp.new := by
  induction sp with
  | tail t => rfl
  | region g v w r ih => simp [swap, old, new, ih]

@[simp] theorem swap_new (sp : Splice) : sp.swap.new = sp.old := by
  induction sp with
  | tail t => rfl
  | region g v w r ih => simp [swap, old, new, ih]

@[simp] theorem swap_swap (sp : Splice) : sp.swap.swap = sp := by
  induction sp with
  | tail t => rfl
  | region g v w r ih => simp [swap, ih]

/-- Each edit of a splice ends inside its old content. -/
theorem edits_reach_le : ∀ (sp : Splice) (base : Nat),
    ∀ e ∈ sp.edits base, e.offset + e.old.length ≤ base + sp.old.length
  | tail _, _ => by simp [edits]
  | region g v w r, base => by
      intro e he
      simp only [edits, List.mem_cons] at he
      simp only [old, List.length_append]
      rcases he with rfl | he
      · push_cast
        omega
      · have := edits_reach_le r (base + g.length + v.length) e he
        push_cast at this
        omega

/-- Making the edits of a splice whose old content follows `pre`, each ending below the largest
    word, gives its new content, each replacement at the offset of the swapped splice's edit. -/
theorem applyFrom_edits (sp : Splice) :
    ∀ (pre : Bytes) (written index : Nat),
      (∀ e ∈ sp.edits pre.length, e.offset + e.old.length < 2 ^ 63) →
      Edit.applyFrom (pre ++ sp.old) pre.length written index (sp.edits pre.length) =
        .ok (sp.new, (sp.swap.edits written).map fun e => e.offset.toNat) := by
  induction sp with
  | tail t =>
      intro pre written index _
      simp [edits, old, new, swap, Edit.applyFrom]
  | region g v w r ih =>
      intro pre written index hwords
      have hend : pre.length + g.length + v.length ≤ (pre ++ (g ++ v ++ r.old)).length := by
        simp only [List.length_append]
        omega
      have hold : ((pre ++ (g ++ v ++ r.old)).drop (pre.length + g.length)).take v.length = v := by
        rw [show pre ++ (g ++ v ++ r.old) = (pre ++ g) ++ (v ++ r.old) by simp,
          ← List.length_append, List.drop_left, List.take_left]
      have hword : pre.length + g.length + v.length < 2 ^ 63 := by
        have := hwords _ List.mem_cons_self
        push_cast at this
        omega
      simp only [old]
      rw [edits, Edit.applyFrom_cons hword rfl (Nat.le_add_right _ _) hend hold]
      -- the rest is a splice whose old content follows `pre ++ g ++ v`
      have hrest := ih (pre ++ g ++ v) (written + g.length + w.length) (index + 1)
        (fun e he => hwords e (List.mem_cons_of_mem _ (by simpa [Nat.add_assoc] using he)))
      simp only [List.append_assoc, List.length_append] at hrest
      simp only [Nat.add_sub_cancel_left, List.append_assoc, Nat.add_assoc] at hrest ⊢
      rw [hrest]
      simp only [Except.map, new, swap, edits, List.map_cons, Except.ok.injEq, Prod.mk.injEq,
        List.cons.injEq, Nat.add_assoc]
      refine ⟨by simp, by omega, trivial⟩

/-- The edits of a splice turn its old content into its new content. -/
theorem applyEdits_edits (sp : Splice) (hsize : sp.old.length < 2 ^ 63) :
    applyEdits sp.old (sp.edits 0) =
      .ok (sp.new, (sp.swap.edits 0).map fun e => e.offset.toNat) :=
  sp.applyFrom_edits [] 0 0 fun e he => by
    have := sp.edits_reach_le 0 e he
    omega

end Splice

end Unalias
