import Mathlib.Data.List.Count
import Mathlib.Tactic

/-!
# First and last places in a list

Places count from one and zero means nowhere. A search that stops at the first match and a search
that keeps the last one agree on what stands in the list just once. An index into a concatenation
falls into one of its parts.
-/

set_option autoImplicit false

namespace PulseForge.Foundation

variable {α : Type} [DecidableEq α] {a x : α} {l : List α}

/-- The place of the first `a`. -/
def firstPlace (a : α) (l : List α) : ℕ :=
  match l.findIdx? fun x => x = a with
  | none => 0
  | some i => i + 1

/-- The place of the last `a`, by a scan that overwrites what it found. -/
def lastPlace (a : α) (l : List α) : ℕ :=
  l.zipIdx.foldl (fun place p => if p.1 = a then p.2 + 1 else place) 0

/-- The first place of an element does not depend on what follows. -/
theorem firstPlace_of_mem (h : a ∈ l) (l' : List α) :
    firstPlace a (l ++ l') = firstPlace a l := by
  have hsome : (l.findIdx? fun x => x = a).isSome = true := by
    rw [List.findIdx?_isSome, List.any_eq_true]
    exact ⟨a, h, decide_eq_true rfl⟩
  obtain ⟨i, hi⟩ := Option.isSome_iff_exists.mp hsome
  unfold firstPlace
  rw [List.findIdx?_append, hi]
  rfl

/-- The first place of an element that was not there before. -/
theorem firstPlace_concat_self (h : a ∉ l) : firstPlace a (l ++ [a]) = l.length + 1 := by
  have hnone : (l.findIdx? fun x => x = a) = none := by
    rw [List.findIdx?_eq_none_iff]
    intro x hx
    apply decide_eq_false
    rintro rfl
    exact h hx
  unfold firstPlace
  rw [List.findIdx?_append, hnone]
  simp

/-- The first place is within the list. -/
theorem firstPlace_le (a : α) (l : List α) : firstPlace a l ≤ l.length := by
  unfold firstPlace
  split
  · exact Nat.zero_le _
  · next i hi => exact (List.findIdx?_eq_some_iff_findIdx_eq.mp hi).1

theorem lastPlace_concat (a x : α) (l : List α) :
    lastPlace a (l ++ [x]) = if x = a then l.length + 1 else lastPlace a l := by
  unfold lastPlace
  rw [List.zipIdx_append, List.foldl_append, List.zipIdx_singleton, List.foldl_cons, List.foldl_nil,
    Nat.zero_add]

/-- The last place is within the list. -/
theorem lastPlace_le (a : α) (l : List α) : lastPlace a l ≤ l.length := by
  induction l using List.reverseRecOn with
  | nil => rfl
  | append_singleton l x ih =>
    rw [lastPlace_concat, List.length_append, List.length_singleton]
    split_ifs
    · exact le_rfl
    · omega

/-- What is listed has a place. -/
theorem lastPlace_pos (h : a ∈ l) : 0 < lastPlace a l := by
  induction l using List.reverseRecOn with
  | nil => exact absurd h List.not_mem_nil
  | append_singleton l x ih =>
    rw [lastPlace_concat]
    split_ifs with hx
    · exact Nat.succ_pos _
    · rcases List.mem_append.mp h with hl | hl
      · exact ih hl
      · exact absurd (List.mem_singleton.mp hl).symm hx

/-- **The two searches agree** on what is listed just once. -/
theorem lastPlace_eq_firstPlace_iff (h : a ∈ l) :
    lastPlace a l = firstPlace a l ↔ l.count a = 1 := by
  induction l using List.reverseRecOn with
  | nil => exact absurd h List.not_mem_nil
  | append_singleton l x ih =>
    rw [lastPlace_concat, List.count_append, List.count_singleton]
    by_cases hx : x = a
    · subst hx
      rw [if_pos rfl, if_pos (beq_self_eq_true x)]
      by_cases hl : x ∈ l
      · have hle := firstPlace_le x l
        have hpos := List.count_pos_iff.mpr hl
        rw [firstPlace_of_mem hl]
        omega
      · rw [firstPlace_concat_self hl, List.count_eq_zero_of_not_mem hl]
        simp
    · have hl : a ∈ l := by
        rcases List.mem_append.mp h with hl | hl
        · exact hl
        · exact absurd (List.mem_singleton.mp hl).symm hx
      rw [if_neg hx, if_neg (by simpa using hx), firstPlace_of_mem hl, ih hl, Nat.add_zero]

omit [DecidableEq α] in
/-- **The part of a concatenation** that an index falls into. -/
theorem exists_append_of_lt_flatMap {β : Type} {f : α → List β} {i : ℕ}
    (h : i < (l.flatMap f).length) :
    ∃ before a after, l = before ++ a :: after ∧ (before.flatMap f).length ≤ i ∧
      i < (before.flatMap f).length + (f a).length := by
  induction l generalizing i with
  | nil => exact absurd h (Nat.not_lt_zero i)
  | cons a l ih =>
    by_cases hfirst : i < (f a).length
    · exact ⟨[], a, l, rfl, Nat.zero_le i, by simpa using hfirst⟩
    · rw [List.flatMap_cons, List.length_append] at h
      obtain ⟨before, b, after, rfl, hle, hlt⟩ := @ih (i - (f a).length) (by omega)
      refine ⟨a :: before, b, after, rfl, ?_, ?_⟩
      · rw [List.flatMap_cons, List.length_append]
        omega
      · rw [List.flatMap_cons, List.length_append]
        omega

end PulseForge.Foundation
