/-!
# Proofs/Coupling — two computations side by side

Two computations with states of their own are **coupled** when they fail alike and otherwise leave
related results and related states.  Coupling goes through sequencing (`Coupled.bind`), so a
simulation between two programs is put together from couplings of their parts.
-/

namespace Yielding

section Coupling

variable {ε σ τ α β γ δ : Type}

/-- Both outcomes are the same failure, or both are successes that are related. -/
def Coupled (R : α → σ → β → τ → Prop) : Except ε (α × σ) → Except ε (β × τ) → Prop
  | .ok (a, s), .ok (b, t) => R a s b t
  | .error e, .error e' => e = e'
  | .ok _, .error _ => False
  | .error _, .ok _ => False

theorem Coupled.cases {R : α → σ → β → τ → Prop} :
    ∀ {x : Except ε (α × σ)} {y : Except ε (β × τ)}, Coupled R x y →
      (∃ a s b t, x = .ok (a, s) ∧ y = .ok (b, t) ∧ R a s b t) ∨ ∃ e, x = .error e ∧ y = .error e
  | .ok (a, s), .ok (b, t), h => .inl ⟨a, s, b, t, rfl, rfl, h⟩
  | .error e, .error _, h => .inr ⟨e, rfl, congrArg _ (Eq.symm h)⟩

theorem Coupled.of_ok {R : α → σ → β → τ → Prop} {x : Except ε (α × σ)}
    {y : Except ε (β × τ)} {a : α}
    {s : σ} (h : Coupled R x y) (hx : x = .ok (a, s)) : ∃ b t, R a s b t ∧ y = .ok (b, t) := by
  obtain ⟨_, _, b, t, hx', hy, hR⟩ | ⟨e, hx', -⟩ := h.cases
  · cases hx.symm.trans hx'
    exact ⟨b, t, hR, hy⟩
  · cases hx.symm.trans hx'

theorem Coupled.mono {R Q : α → σ → β → τ → Prop} (hRQ : ∀ a s b t, R a s b t → Q a s b t) :
    ∀ {x : Except ε (α × σ)} {y : Except ε (β × τ)}, Coupled R x y → Coupled Q x y
  | .ok (_, _), .ok (_, _), h => hRQ _ _ _ _ h
  | .error _, .error _, h => h

/-- **Coupling goes through sequencing.** -/
theorem Coupled.bind {R : α → σ → β → τ → Prop} {Q : γ → σ → δ → τ → Prop}
    {x : StateT σ (Except ε) α} {y : StateT τ (Except ε) β}
    {f : α → StateT σ (Except ε) γ} {g : β → StateT τ (Except ε) δ} {s : σ} {t : τ}
    (h : Coupled R (x.run s) (y.run t))
    (k : ∀ a s' b t', R a s' b t' → Coupled Q ((f a).run s') ((g b).run t')) :
    Coupled Q ((x >>= f).run s) ((y >>= g).run t) := by
  rw [StateT.run_bind, StateT.run_bind]
  obtain ⟨a, s', b, t', hx, hy, hab⟩ | ⟨e, hx, hy⟩ := h.cases
  · rw [hx, hy]
    exact k a s' b t' hab
  · rw [hx, hy]
    rfl

variable {S : σ → τ → Prop} {R : α → β → Prop} {Q : γ → δ → Prop}

/-- From related states, two runs fail alike, or have related results and end in related states. -/
def Lockstep (S : σ → τ → Prop) (R : α → β → Prop) (x : StateT σ (Except ε) α)
    (y : StateT τ (Except ε) β) : Prop :=
  ∀ s t, S s t → Coupled (fun a s b t => R a b ∧ S s t) (x.run s) (y.run t)

theorem lockstep_pure {a : α} {b : β} (h : R a b) :
    Lockstep S R (pure a : StateT σ (Except ε) α) (pure b) :=
  fun _ _ hs => ⟨h, hs⟩

theorem lockstep_throw (e : ε) : Lockstep S R (throw e : StateT σ (Except ε) α) (throw e) :=
  fun _ _ _ => rfl

theorem lockstep_modifyGet {f : σ → α × σ} {g : τ → β × τ}
    (h : ∀ s t, S s t → R (f s).1 (g t).1 ∧ S (f s).2 (g t).2) :
    Lockstep S R (modifyGet f : StateT σ (Except ε) α) (modifyGet g) :=
  h

theorem lockstep_modify {f : σ → σ} {g : τ → τ} (h : ∀ s t, S s t → S (f s) (g t)) :
    Lockstep S (fun _ _ => True) (modify f : StateT σ (Except ε) PUnit) (modify g) :=
  fun s t hs => ⟨trivial, h s t hs⟩

theorem lockstep_get : Lockstep S S (get : StateT σ (Except ε) σ) get := fun _ _ hs => ⟨hs, hs⟩

/-- **Runs in lockstep can be put one after another.** -/
theorem Lockstep.bind {x : StateT σ (Except ε) α} {y : StateT τ (Except ε) β}
    {f : α → StateT σ (Except ε) γ} {g : β → StateT τ (Except ε) δ} (h : Lockstep S R x y)
    (hf : ∀ a b, R a b → Lockstep S Q (f a) (g b)) : Lockstep S Q (x >>= f) (y >>= g) :=
  fun s t hs => (h s t hs).bind fun a _ b _ hab => hf a b hab.1 _ _ hab.2

theorem lockstep_refl {R : α → α → Prop} (hR : ∀ a, R a a) (x : StateT σ (Except ε) α) :
    Lockstep Eq R x x := by
  rintro s _ rfl
  cases x.run s with
  | error e => exact rfl
  | ok a => exact ⟨hR a.1, rfl⟩

end Coupling

end Yielding
