import Mathlib.Tactic

/-!
# Checked programs and plain ones

A checked program runs on a state of its own and may fail: `none` is a step that must not be
made, such as a load outside an array. `ReadsAs R c f` says that from related states the checked
program `c` does not fail and does what the plain function `f` does; `EndsAs R c g` says it of a
program whose last state nobody looks at. The rules follow the program, one bind after the other.
-/

set_option autoImplicit false

namespace PulseForge.Foundation

variable {σ τ α β : Type}

/-- From related states the checked program gives the plain value and leads to related states. -/
def ReadsAs (R : σ → τ → Prop) (c : StateT σ Option α) (f : τ → α × τ) : Prop :=
  ∀ s t, R s t → ∃ s', c s = some ((f t).1, s') ∧ R s' (f t).2

/-- From related states the checked program gives the plain value. -/
def EndsAs (R : σ → τ → Prop) (c : StateT σ Option α) (g : τ → α) : Prop :=
  ∀ s t, R s t → ∃ s', c s = some (g t, s')

variable {R : σ → τ → Prop} {c : StateT σ Option α} {f : τ → α × τ}

/-- A step that is checked, and what follows. -/
theorem bind_some {k : α → StateT σ Option β} {s s' : σ} {a : α} (h : c s = some (a, s')) :
    (c >>= k) s = k a s' := by
  show (c s >>= fun p => k p.1 p.2) = k a s'
  rw [h]
  rfl

/-- **One after the other.** -/
theorem ReadsAs.bind {k : α → StateT σ Option β} {g : α → τ → β × τ} (h : ReadsAs R c f)
    (hk : ∀ a, ReadsAs R (k a) (g a)) : ReadsAs R (c >>= k) fun t => g (f t).1 (f t).2 := by
  intro s t hst
  obtain ⟨s', hc, hst'⟩ := h s t hst
  rw [bind_some hc]
  exact hk (f t).1 s' (f t).2 hst'

/-- A value made of what was read. -/
theorem ReadsAs.map (h : ReadsAs R c f) (m : α → β) :
    ReadsAs R (m <$> c) fun t => (m (f t).1, (f t).2) := by
  intro s t hst
  obtain ⟨s', hc, hst'⟩ := h s t hst
  refine ⟨s', ?_, hst'⟩
  rw [← bind_pure_comp, bind_some hc]
  rfl

/-- A value that needs no state. -/
theorem readsAs_pure (a : α) : ReadsAs R (pure a) fun t => (a, t) :=
  fun s _ hst => ⟨s, rfl, hst⟩

/-- **To the end.** -/
theorem ReadsAs.ends {k : α → StateT σ Option β} {g : α → τ → β} (h : ReadsAs R c f)
    (hk : ∀ a, EndsAs R (k a) (g a)) : EndsAs R (c >>= k) fun t => g (f t).1 (f t).2 := by
  intro s t hst
  obtain ⟨s', hc, hst'⟩ := h s t hst
  rw [bind_some hc]
  exact hk (f t).1 s' (f t).2 hst'

/-- A test of what is known already. -/
theorem EndsAs.ite {b : Prop} [Decidable b] {c₁ c₂ : StateT σ Option α} {g₁ g₂ : τ → α}
    (h₁ : EndsAs R c₁ g₁) (h₂ : ¬ b → EndsAs R c₂ g₂) :
    EndsAs R (if b then c₁ else c₂) fun t => if b then g₁ t else g₂ t := by
  by_cases hb : b
  · simp only [if_pos hb]
    exact h₁
  · simp only [if_neg hb]
    exact h₂ hb

/-- From fewer states. -/
theorem EndsAs.mono {R' : σ → τ → Prop} {g : τ → α} (h : EndsAs R c g)
    (hR : ∀ s t, R' s t → R s t) : EndsAs R' c g :=
  fun s t hst => h s t (hR s t hst)

/-- A value that ends the run. -/
theorem endsAs_pure (a : α) : EndsAs R (pure a) fun _ : τ => a :=
  fun s _ _ => ⟨s, rfl⟩

end PulseForge.Foundation
