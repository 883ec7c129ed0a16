/-!
The outcome of an operation on a state that may fail: a result or an error, and a state left behind.
-/

namespace Stepwise

variable {ε σ α β : Type}

/-- What an operation leaves behind, whether it ends or stops. -/
def after : EStateM.Result ε σ α → σ
  | .ok _ s | .error _ s => s

theorem bind_apply (x : EStateM ε σ α) (f : α → EStateM ε σ β) (s : σ) : (x >>= f) s =
    match x s with
    | .ok a s => f a s
    | .error e s => .error e s := by
  change EStateM.bind x f s = _
  unfold EStateM.bind
  cases x s <;> rfl

theorem bind_eq_ok {x : EStateM ε σ α} {f : α → EStateM ε σ β} {s s' : σ} {b : β} (h : (x >>= f) s = .ok b s') :
    ∃ a t, x s = .ok a t ∧ f a t = .ok b s' := by
  rw [bind_apply] at h
  cases hx : x s with
  | ok a t =>
    rw [hx] at h
    exact ⟨a, t, rfl, h⟩
  | error e t =>
    rw [hx] at h
    cases h

theorem map_apply (f : α → β) (x : EStateM ε σ α) (s : σ) : (f <$> x) s =
    match x s with
    | .ok a s => .ok (f a) s
    | .error e s => .error e s := by
  change EStateM.map f x s = _
  unfold EStateM.map
  cases x s <;> rfl

theorem map_eq_ok {f : α → β} {x : EStateM ε σ α} {s s' : σ} {b : β} (h : (f <$> x) s = .ok b s') :
    ∃ a, x s = .ok a s' ∧ f a = b := by
  rw [map_apply] at h
  cases hx : x s with
  | ok a t =>
    rw [hx] at h
    cases h
    exact ⟨a, rfl, rfl⟩
  | error e t =>
    rw [hx] at h
    cases h

theorem get_apply (s : σ) : (get : EStateM ε σ σ) s = .ok s s := rfl

/-- An outcome with another state, result or error in place of each. -/
def image {ε' σ' : Type} (i : σ → σ') (e : ε → ε') (r : α → β) : EStateM.Result ε σ α → EStateM.Result ε' σ' β
  | .ok a s => .ok (r a) (i s)
  | .error f s => .error (e f) (i s)

/-- What an operation makes of a state, another one makes of its image. -/
def Mirrors (i : σ → σ) (e : ε → ε) (r : α → β) (x : EStateM ε σ α) (y : EStateM ε σ β) : Prop :=
  ∀ s, y (i s) = image i e r (x s)

namespace Mirrors

variable {γ δ : Type} {i : σ → σ} {e : ε → ε} {r : α → β} {t : γ → δ} {x x' : EStateM ε σ α} {y y' : EStateM ε σ β}

theorem pure {a : α} {b : β} (h : b = r a) : Mirrors i e r (pure a) (pure b) := fun _ ↦ h ▸ rfl

theorem throw {f f' : ε} (h : f' = e f) : Mirrors i e r (throw f) (throw f') := fun _ ↦ h ▸ rfl

theorem get : Mirrors (e := e) i i get get := fun _ ↦ rfl

theorem set {s s' : σ} (h : s' = i s) : Mirrors i e id (set s) (set s') := fun _ ↦ h ▸ rfl

theorem modify {f g : σ → σ} (h : ∀ s, i (f s) = g (i s)) : Mirrors i e id (modify f) (modify g) :=
  fun s ↦ congrArg (EStateM.Result.ok _) (h s).symm

theorem bind {f : α → EStateM ε σ γ} {g : β → EStateM ε σ δ} (hx : Mirrors i e r x y)
    (hf : ∀ a, Mirrors i e t (f a) (g (r a))) : Mirrors i e t (x >>= f) (y >>= g) := by
  intro s
  rw [bind_apply, bind_apply, hx s]
  cases x s with
  | ok a s => exact hf a s
  | error f s => rfl

theorem seq {z : EStateM ε σ γ} {z' : EStateM ε σ δ} (hx : Mirrors i e r x y) (hz : Mirrors i e t z z') :
    Mirrors i e t (x >>= fun _ ↦ z) (y >>= fun _ ↦ z') := hx.bind fun _ ↦ hz

theorem map {f : α → γ} {g : β → δ} (hx : Mirrors i e r x y) (h : ∀ a, g (r a) = t (f a)) :
    Mirrors i e t (f <$> x) (g <$> y) := by
  intro s
  rw [map_apply, map_apply, hx s]
  cases x s with
  | ok a s => exact congrArg (EStateM.Result.ok · _) (h a)
  | error f s => rfl

theorem ite {c : Prop} [Decidable c] (hx : Mirrors i e r x y) (hx' : Mirrors i e r x' y') :
    Mirrors i e r (if c then x else x') (if c then y else y') := by
  split
  · exact hx
  · exact hx'

theorem forM {f : γ → EStateM ε σ PUnit} {g : δ → EStateM ε σ PUnit} (h : ∀ c, Mirrors i e id (f c) (g (t c)))
    (cs : List γ) : Mirrors i e id (cs.forM f) ((cs.map t).forM g) := by
  induction cs with
  | nil => exact pure rfl
  | cons c cs ih => exact (h c).bind fun _ ↦ ih

end Mirrors

end Stepwise
