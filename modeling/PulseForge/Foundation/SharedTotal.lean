import Mathlib.Data.Multiset.Fold
import Mathlib.Tactic

/-!
# Threads that fold into a shared cell

Threads fold elements into one cell with a commutative and associative operation, each at a time of
its own. What the cell holds and what the threads still owe it make up the fold of everything that
was taken, whoever moves next; when nothing is owed, the cell holds that fold.
-/

set_option autoImplicit false

namespace PulseForge.Foundation

variable {M T : Type} (op : M → M → M) [Std.Commutative op] [Std.Associative op] (e : M)

/-- **The cell together with what is owed** is the fold of `taken`; thread `t` owes `owes t`. -/
def Settles (owes : T → Option M) (threads : List T) (cell : M) (taken : List M) : Prop :=
  ((threads.filterMap owes : List M) : Multiset M).fold op cell = (taken : Multiset M).fold op e

namespace Settles

variable {op e} {owes : T → Option M} {threads : List T} {cell : M} {taken : List M}
  {i : ℕ} {t t' : T} {a : M}

/-- No thread owes anything yet. -/
theorem start (h : ∀ t ∈ threads, owes t = none) : Settles op e owes threads e [] := by
  unfold Settles
  rw [List.filterMap_eq_nil_iff.mpr h]

/-- A cell that the operation does not lower is no larger than the fold. -/
theorem le [Preorder M] (h : Settles op e owes threads cell taken) (hop : ∀ {a b : M}, a ≤ op a b) :
    cell ≤ (taken : Multiset M).fold op e := by
  unfold Settles at h
  rw [← h]
  induction threads.filterMap owes with
  | nil => exact le_refl _
  | cons a l ih =>
    rw [← Multiset.cons_coe, Multiset.fold_cons_right]
    exact le_trans ih hop

/-- The threads, with the one that moves in front. -/
theorem perm_front (hi : threads[i]? = some t) : threads.Perm (t :: threads.eraseIdx i) := by
  obtain ⟨hlt, rfl⟩ := List.getElem?_eq_some_iff.mp hi
  exact (List.getElem_cons_eraseIdx_perm hlt).symm

/-- The thread that acts in front of the others. -/
theorem set_perm_front (hi : threads[i]? = some t) :
    (threads.set i t').Perm (t' :: threads.eraseIdx i) := by
  obtain ⟨hlt, -⟩ := List.getElem?_eq_some_iff.mp hi
  exact List.set_perm_cons_eraseIdx hlt t'

/-- What is owed when thread `i` is `t'`. -/
theorem owed_set (hi : threads[i]? = some t) :
    (((threads.set i t').filterMap owes : List M) : Multiset M) =
      ((t' :: threads.eraseIdx i).filterMap owes : List M) :=
  Multiset.coe_eq_coe.mpr ((set_perm_front hi).filterMap owes)

/-- What is owed, with the thread that acts in front. -/
theorem owed_front (hi : threads[i]? = some t) :
    ((threads.filterMap owes : List M) : Multiset M) =
      ((t :: threads.eraseIdx i).filterMap owes : List M) :=
  Multiset.coe_eq_coe.mpr ((perm_front hi).filterMap owes)

/-- **A move that concerns the cell in no way.** -/
theorem keep (h : Settles op e owes threads cell taken) (hi : threads[i]? = some t)
    (howes : owes t' = owes t) : Settles op e owes (threads.set i t') cell taken := by
  unfold Settles at h ⊢
  rw [owed_front hi] at h
  rw [owed_set hi, ← h, List.filterMap_cons, List.filterMap_cons, howes]

/-- **A thread takes an element**, which it owes from now on. -/
theorem take (h : Settles op e owes threads cell taken) (hi : threads[i]? = some t)
    (hnone : owes t = none) (hsome : owes t' = some a) :
    Settles op e owes (threads.set i t') cell (taken ++ [a]) := by
  unfold Settles at h ⊢
  rw [owed_front hi, List.filterMap_cons_none hnone] at h
  rw [owed_set hi, List.filterMap_cons_some hsome, ← Multiset.cons_coe, Multiset.fold_cons_left, h,
    ← Multiset.coe_add, Multiset.coe_singleton, Multiset.add_comm, Multiset.singleton_add,
    Multiset.fold_cons_left]

/-- **A thread pays**: the cell takes in what it owed. -/
theorem pay (h : Settles op e owes threads cell taken) (hi : threads[i]? = some t)
    (hsome : owes t = some a) (hnone : owes t' = none) :
    Settles op e owes (threads.set i t') (op cell a) taken := by
  unfold Settles at h ⊢
  rw [owed_front hi, List.filterMap_cons_some hsome, ← Multiset.cons_coe,
    Multiset.fold_cons'_right] at h
  rw [owed_set hi, List.filterMap_cons_none hnone, h]

end Settles

end PulseForge.Foundation
