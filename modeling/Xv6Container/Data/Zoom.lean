import Xv6Container.Data.Returns

/-!
# Code that works on a part of the state

`zoom get set m` runs `m`, which knows a state `τ` only, on the part of a larger state `σ` that
`get` reads and `set` writes back.
-/

namespace Xv6Container

variable {σ τ ε α : Type} {get : σ → τ} {set : σ → τ → σ} {m : StateT τ (Except ε) α} {s s' : σ}
  {a : α} {e : ε}

/-- Run `m` on a part of the state. -/
def zoom (get : σ → τ) (set : σ → τ → σ) (m : StateT τ (Except ε) α) : StateT σ (Except ε) α :=
  fun s => do
    let (a, t) ← m (get s)
    return (a, set s t)

theorem returns_zoom :
    Returns (zoom get set m) s a s' ↔ ∃ t, Returns m (get s) a t ∧ s' = set s t := by
  simp only [Returns, zoom, StateT.run]
  cases h : m (get s) with
  | error e => simp [bind, Except.bind]
  | ok y =>
    obtain ⟨b, t⟩ := y
    simp only [bind, Except.bind, pure, Except.pure, Except.ok.injEq, Prod.mk.injEq]
    constructor
    · rintro ⟨rfl, rfl⟩
      exact ⟨t, ⟨rfl, rfl⟩, rfl⟩
    · rintro ⟨t', ⟨rfl, rfl⟩, rfl⟩
      exact ⟨rfl, rfl⟩

theorem fails_zoom : Fails (zoom get set m) s e ↔ Fails m (get s) e := by
  simp only [Fails, zoom, StateT.run]
  cases h : m (get s) with
  | error e' => simp [bind, Except.bind]
  | ok y => simp [bind, Except.bind, pure, Except.pure]

end Xv6Container
