import Mathlib.Data.List.Basic
import Mathlib.Tactic

/-!
# Intrusive queues in a pool

Nodes of a pool are natural numbers, `nil` is a number no node has, and the links are two
functions `prev` and `next`. `Queue prev next nil head tail xs` says that the nodes `xs`
are doubly linked in that order between `head` and `tail`. Appending at the tail and
unlinking from anywhere write at most two links of other nodes; `Queue.pushBack` and
`Queue.unlink` say what those writes give, for any link functions that agree with the old
ones elsewhere. `Chain` is the singly linked form of a free list.
-/

set_option autoImplicit false

namespace PulseForge.Foundation

variable {prev next prev' next' : ℕ → ℕ} {nil : ℕ}

/-- The links of a stretch of nodes that follows node `p` and is followed by node `e`. -/
def Seg (prev next : ℕ → ℕ) : ℕ → List ℕ → ℕ → Prop
  | _, [], _ => True
  | p, a :: xs, e => prev a = p ∧ next a = xs.headD e ∧ Seg prev next a xs e

/-- A segment of two lists is a segment of each, end to end. -/
theorem seg_append {p e : ℕ} {xs ys : List ℕ} :
    Seg prev next p (xs ++ ys) e ↔
      Seg prev next p xs (ys.headD e) ∧ Seg prev next (xs.getLastD p) ys e := by
  induction xs generalizing p with
  | nil => simp [Seg]
  | cons a xs ih =>
    have hhead : (xs ++ ys).headD e = xs.headD (ys.headD e) := by cases xs <;> rfl
    rw [List.cons_append, Seg, Seg, ih, List.getLastD_cons, hhead]
    tauto

/-- A stretch depends on the links of its own nodes only. -/
theorem Seg.congr {p e : ℕ} {xs : List ℕ} (h : Seg prev next p xs e)
    (hp : ∀ a ∈ xs, prev' a = prev a) (hn : ∀ a ∈ xs, next' a = next a) :
    Seg prev' next' p xs e := by
  induction xs generalizing p with
  | nil => trivial
  | cons a xs ih =>
    obtain ⟨h1, h2, h3⟩ := h
    exact ⟨(hp a (by simp)).trans h1, (hn a (by simp)).trans h2,
      ih h3 (fun x hx => hp x (by simp [hx])) (fun x hx => hn x (by simp [hx]))⟩

/-- Redirecting the end of a stretch rewrites the `next` link of its last node. -/
theorem Seg.redirect_end (nil : ℕ) {p e e' : ℕ} {xs : List ℕ} (h : Seg prev next p xs e)
    (hnd : xs.Nodup) (hp : ∀ a ∈ xs, prev' a = prev a)
    (hn : ∀ a ∈ xs, a ≠ xs.getLastD nil → next' a = next a)
    (hlast : xs ≠ [] → next' (xs.getLastD nil) = e') :
    Seg prev' next' p xs e' := by
  rcases List.eq_nil_or_concat xs with rfl | ⟨ys, a, rfl⟩
  · trivial
  · rw [List.concat_eq_append] at *
    have hlast' : (ys ++ [a]).getLastD nil = a := by simp
    rw [hlast'] at hn hlast
    rw [seg_append] at h ⊢
    obtain ⟨h1, h2, -, -⟩ := h
    have hay : ∀ x ∈ ys, x ≠ a := by
      rintro x hx rfl
      exact (List.nodup_append.mp hnd).2.2 x hx x (by simp) rfl
    refine ⟨h1.congr (fun x hx => hp x (by simp [hx]))
      (fun x hx => hn x (by simp [hx]) (hay x hx)), ?_, ?_, trivial⟩
    · rw [hp a (by simp), h2]
    · exact hlast (by simp)

/-- Redirecting the start of a stretch rewrites the `prev` link of its first node. -/
theorem Seg.redirect_start (nil : ℕ) {p p' e : ℕ} {xs : List ℕ} (h : Seg prev next p xs e)
    (hnd : xs.Nodup) (hn : ∀ a ∈ xs, next' a = next a)
    (hp : ∀ a ∈ xs, a ≠ xs.headD nil → prev' a = prev a)
    (hhead : xs ≠ [] → prev' (xs.headD nil) = p') :
    Seg prev' next' p' xs e := by
  cases xs with
  | nil => trivial
  | cons a xs =>
    obtain ⟨-, h2, h3⟩ := h
    rw [List.nodup_cons] at hnd
    refine ⟨hhead (by simp), by rw [hn a (by simp), h2], ?_⟩
    refine h3.congr (fun x hx => hp x (by simp [hx]) ?_) (fun x hx => hn x (by simp [hx]))
    rintro rfl
    exact hnd.1 hx

/-- The nodes `xs`, doubly linked from `head` to `tail`. -/
structure Queue (prev next : ℕ → ℕ) (nil head tail : ℕ) (xs : List ℕ) : Prop where
  head_eq : head = xs.headD nil
  tail_eq : tail = xs.getLastD nil
  seg : Seg prev next nil xs nil
  nodup : xs.Nodup
  nil_notMem : nil ∉ xs

namespace Queue

variable {head tail : ℕ} {xs : List ℕ}

/-- An empty queue has neither head nor tail. -/
theorem empty : Queue prev next nil nil nil [] :=
  ⟨rfl, rfl, trivial, List.nodup_nil, by simp⟩

/-- A queue depends on the links of its nodes. -/
theorem congr (h : Queue prev next nil head tail xs)
    (hp : ∀ a ∈ xs, prev' a = prev a) (hn : ∀ a ∈ xs, next' a = next a) :
    Queue prev' next' nil head tail xs :=
  { h with seg := h.seg.congr hp hn }

/-- There is no head exactly when the list is empty. -/
theorem headD_eq_nil_iff (h : nil ∉ xs) : xs.headD nil = nil ↔ xs = [] := by
  cases xs with
  | nil => simp
  | cons a xs =>
    simp only [List.headD_cons, reduceCtorEq, iff_false]
    rintro rfl
    simp at h

/-- There is no last node exactly when the list is empty. -/
theorem getLastD_eq_nil_iff (h : nil ∉ xs) : xs.getLastD nil = nil ↔ xs = [] := by
  rcases List.eq_nil_or_concat xs with rfl | ⟨ys, a, rfl⟩
  · simp
  · rw [List.concat_eq_append] at *
    simp only [List.getLastD_concat, List.append_eq_nil_iff, List.cons_ne_self, and_false,
      iff_false]
    rintro rfl
    simp at h

/-- There is no tail exactly when the queue is empty. -/
theorem tail_eq_nil_iff (h : Queue prev next nil head tail xs) : tail = nil ↔ xs = [] := by
  rw [h.tail_eq, getLastD_eq_nil_iff h.nil_notMem]

/-- **Append at the tail.** The new node points back at the old tail, and the old tail, if
there is one, forward at it. -/
theorem pushBack {n : ℕ} (h : Queue prev next nil head tail xs) (hn : n ∉ xs) (hnil : n ≠ nil)
    (hprev : ∀ a ∈ xs, prev' a = prev a) (hprevn : prev' n = tail)
    (hnext : ∀ a ∈ xs, a ≠ tail → next' a = next a) (hnextn : next' n = nil)
    (hlink : xs ≠ [] → next' tail = n) :
    Queue prev' next' nil (if tail = nil then n else head) n (xs ++ [n]) := by
  have htail := h.tail_eq
  refine ⟨?_, by simp, ?_, ?_, ?_⟩
  · rw [h.head_eq]
    cases xs with
    | nil => rw [if_pos (h.tail_eq_nil_iff.mpr rfl)]; rfl
    | cons a xs => rw [if_neg (fun hc => by simpa using h.tail_eq_nil_iff.mp hc)]; rfl
  · rw [seg_append]
    refine ⟨h.seg.redirect_end nil h.nodup hprev ?_ ?_, ?_, hnextn, trivial⟩
    · rwa [← htail]
    · rwa [← htail]
    · rw [hprevn, htail]
  · rw [List.nodup_append]
    refine ⟨h.nodup, by simp, ?_⟩
    rintro a ha b hb rfl
    rw [List.mem_singleton] at hb
    exact hn (hb ▸ ha)
  · rw [List.mem_append, List.mem_singleton]
    rintro (hmem | rfl)
    · exact h.nil_notMem hmem
    · exact hnil rfl

/-- The links of a node in the middle of a queue. -/
theorem links {l r : List ℕ} {n : ℕ} (h : Queue prev next nil head tail (l ++ n :: r)) :
    prev n = l.getLastD nil ∧ next n = r.headD nil := by
  have := (seg_append.mp h.seg).2
  exact ⟨this.1, this.2.1⟩

/-- The neighbour behind a node is not a node of the other side. -/
theorem ne_headD {a : ℕ} (ha : a ∉ xs) (hnil : a ≠ nil) : a ≠ xs.headD nil := by
  cases xs with
  | nil => exact hnil
  | cons b xs =>
    rintro rfl
    simp at ha

/-- A node outside the queue is not its last. -/
theorem ne_getLastD {a : ℕ} (ha : a ∉ xs) (hnil : a ≠ nil) : a ≠ xs.getLastD nil := by
  rcases List.eq_nil_or_concat xs with rfl | ⟨ys, b, rfl⟩
  · exact hnil
  · rw [List.concat_eq_append, List.getLastD_concat]
    rintro rfl
    simp at ha

/-- The first node without `n`: it moves only if `n` was the first. -/
theorem headD_unlink {l r : List ℕ} (n : ℕ) (hl : nil ∉ l) :
    (if l.getLastD nil = nil then r.headD nil else (l ++ n :: r).headD nil) =
      (l ++ r).headD nil := by
  have hiff := getLastD_eq_nil_iff hl
  cases l with
  | nil => rw [if_pos (hiff.mpr rfl), List.nil_append]
  | cons a l =>
    rw [if_neg fun hc => by simpa using hiff.mp hc]
    rfl

/-- The last node without `n`. -/
theorem getLastD_unlink {l r : List ℕ} (n : ℕ) (hr : nil ∉ r) :
    (if r.headD nil = nil then l.getLastD nil else (l ++ n :: r).getLastD nil) =
      (l ++ r).getLastD nil := by
  have hiff := headD_eq_nil_iff hr
  rcases List.eq_nil_or_concat r with rfl | ⟨ys, a, rfl⟩
  · rw [if_pos (hiff.mpr rfl), List.append_nil]
  · rw [List.concat_eq_append] at *
    rw [if_neg fun hc => by simpa using hiff.mp hc, ← List.append_assoc, List.getLastD_concat,
      ← List.cons_append, ← List.append_assoc, List.getLastD_concat]

/-- **Unlink a node.** Its neighbours are joined; a missing neighbour moves `head` or
`tail` instead. -/
theorem unlink {l r : List ℕ} {n : ℕ} (h : Queue prev next nil head tail (l ++ n :: r))
    (hprev : ∀ a ∈ l ++ r, a ≠ next n → prev' a = prev a)
    (hnext : ∀ a ∈ l ++ r, a ≠ prev n → next' a = next a)
    (hprevr : next n ≠ nil → prev' (next n) = prev n)
    (hnextl : prev n ≠ nil → next' (prev n) = next n) :
    Queue prev' next' nil (if prev n = nil then next n else head)
      (if next n = nil then prev n else tail) (l ++ r) := by
  obtain ⟨hpn, hnn⟩ := h.links
  have hnd := h.nodup
  rw [List.nodup_append] at hnd
  obtain ⟨hndl, hndr, hdisj⟩ := hnd
  rw [List.nodup_cons] at hndr
  have hnot := h.nil_notMem
  simp only [List.mem_append, List.mem_cons, not_or] at hnot
  obtain ⟨hnl, -, hnr⟩ := hnot
  have hlr : ∀ a ∈ l, a ∉ r := fun a ha hr => hdisj a ha a (by simp [hr]) rfl
  obtain ⟨hseg1, -, -, hseg2⟩ := seg_append.mp h.seg
  rw [hpn] at hnext hprevr hnextl ⊢
  rw [hnn] at hprev hprevr hnextl ⊢
  have hleft : Seg prev' next' nil l (r.headD nil) := by
    refine hseg1.redirect_end nil hndl (fun a ha => ?_) (fun a ha => ?_) (fun hne => ?_)
    · exact hprev a (by simp [ha]) (ne_headD (hlr a ha) fun hc => hnl (hc ▸ ha))
    · exact hnext a (by simp [ha])
    · exact hnextl fun hc => hne ((getLastD_eq_nil_iff hnl).mp hc)
  have hright : Seg prev' next' (l.getLastD nil) r nil := by
    refine hseg2.redirect_start nil hndr.2 (fun a ha => ?_) (fun a ha => ?_) (fun hne => ?_)
    · exact hnext a (by simp [ha])
        (ne_getLastD (fun hl => hlr a hl ha) fun hc => hnr (hc ▸ ha))
    · exact hprev a (by simp [ha])
    · exact hprevr fun hc => hne ((headD_eq_nil_iff hnr).mp hc)
  refine ⟨?_, ?_, seg_append.mpr ⟨hleft, hright⟩, ?_, ?_⟩
  · rw [h.head_eq]
    exact headD_unlink n hnl
  · rw [h.tail_eq]
    exact getLastD_unlink n hnr
  · rw [List.nodup_append]
    exact ⟨hndl, hndr.2, fun a ha b hb hab => hlr a ha (hab ▸ hb)⟩
  · simp [hnl, hnr]

end Queue

/-! ## Free lists -/

/-- The nodes `xs`, singly linked from `head` to `nil`. -/
def Chain (next : ℕ → ℕ) (nil : ℕ) : ℕ → List ℕ → Prop
  | head, [] => head = nil
  | head, a :: xs => head = a ∧ Chain next nil (next a) xs

/-- A chain depends on the links of its nodes. -/
theorem Chain.congr {head : ℕ} {xs : List ℕ} (h : Chain next nil head xs)
    (hn : ∀ a ∈ xs, next' a = next a) : Chain next' nil head xs := by
  induction xs generalizing head with
  | nil => exact h
  | cons a xs ih =>
    obtain ⟨h1, h2⟩ := h
    refine ⟨h1, ?_⟩
    rw [hn a (by simp)]
    exact ih h2 (fun x hx => hn x (by simp [hx]))

/-- There is no head exactly when the chain is empty. -/
theorem Chain.eq_nil_iff {head : ℕ} {xs : List ℕ} (h : Chain next nil head xs)
    (hnil : nil ∉ xs) : head = nil ↔ xs = [] := by
  cases xs with
  | nil => exact ⟨fun _ => rfl, fun _ => h⟩
  | cons a xs =>
    obtain ⟨rfl, -⟩ := h
    simp only [reduceCtorEq, iff_false]
    rintro rfl
    simp at hnil

/-- A doubly linked queue read forward is a chain. -/
theorem Seg.chain {p : ℕ} {xs : List ℕ} (h : Seg prev next p xs nil) :
    Chain next nil (xs.headD nil) xs := by
  induction xs generalizing p with
  | nil => rfl
  | cons a xs ih =>
    obtain ⟨-, h2, h3⟩ := h
    refine ⟨rfl, ?_⟩
    rw [h2]
    exact ih h3

end PulseForge.Foundation
