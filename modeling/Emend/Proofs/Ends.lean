namespace EStateM

variable {ε σ α β : Type}

/-- What the computation gives from the state on meets the first condition if it is a result, and the
second if it is an error. -/
def Ends (x : EStateM ε σ α) (s : σ) (ok : α → σ → Prop) (error : ε → σ → Prop) : Prop :=
  match x s with
  | .ok a s => ok a s
  | .error e s => error e s

variable {x : EStateM ε σ α} {s s' : σ} {ok ok' : α → σ → Prop} {error error' : ε → σ → Prop}

theorem Ends.of_ok {a : α} (h : Ends x s ok error) (hx : x s = .ok a s') : ok a s' := by
  rw [Ends, hx] at h
  exact h

theorem Ends.of_error {e : ε} (h : Ends x s ok error) (hx : x s = .error e s') : error e s' := by
  rw [Ends, hx] at h
  exact h

theorem Ends.mono (h : Ends x s ok error) (hok : ∀ a s', ok a s' → ok' a s')
    (herror : ∀ e s', error e s' → error' e s') : Ends x s ok' error' := by
  unfold Ends
  split
  · next a s' hx => exact hok a s' (h.of_ok hx)
  · next e s' hx => exact herror e s' (h.of_error hx)

theorem Ends.imp_ok (h : Ends x s ok error) (hok : ∀ a s', ok a s' → ok' a s') : Ends x s ok' error :=
  h.mono hok fun _ _ he => he

theorem Ends.imp_error (h : Ends x s ok error) (herror : ∀ e s', error e s' → error' e s') :
    Ends x s ok error' :=
  h.mono (fun _ _ ha => ha) herror

theorem Ends.and (h : Ends x s ok error) (h' : Ends x s ok' error') :
    Ends x s (fun a s' => ok a s' ∧ ok' a s') (fun e s' => error e s' ∧ error' e s') := by
  unfold Ends
  split
  · next a s' hx => exact ⟨h.of_ok hx, h'.of_ok hx⟩
  · next e s' hx => exact ⟨h.of_error hx, h'.of_error hx⟩

theorem ends_self (x : EStateM ε σ α) (s : σ) :
    Ends x s (fun a s' => x s = .ok a s') (fun e s' => x s = .error e s') := by
  unfold Ends
  split
  · assumption
  · assumption

theorem ends_congr {y : EStateM ε σ α} {r : σ} (h : x s = y r) :
    Ends x s ok error ↔ Ends y r ok error := by
  rw [Ends, Ends, h]

@[simp] theorem ends_pure {a : α} : Ends (pure a) s ok error ↔ ok a s := Iff.rfl

@[simp] theorem ends_throw {e : ε} : Ends (throw e : EStateM ε σ α) s ok error ↔ error e s := Iff.rfl

@[simp] theorem ends_get {ok : σ → σ → Prop} : Ends get s ok error ↔ ok s s := Iff.rfl

@[simp] theorem ends_set {ok : PUnit → σ → Prop} : Ends (set s') s ok error ↔ ok ⟨⟩ s' := Iff.rfl

@[simp] theorem ends_modify {f : σ → σ} {ok : PUnit → σ → Prop} :
    Ends (modify f) s ok error ↔ ok ⟨⟩ (f s) := Iff.rfl

@[simp] theorem ends_map {f : α → β} {ok : β → σ → Prop} :
    Ends (x.map f) s ok error ↔ Ends x s (fun a => ok (f a)) error := by
  unfold Ends EStateM.map
  cases x s <;> rfl

@[simp] theorem ends_adaptExcept {ε' : Type} {f : ε → ε'} {error : ε' → σ → Prop} :
    Ends (x.adaptExcept f) s ok error ↔ Ends x s ok fun e => error (f e) := by
  unfold Ends EStateM.adaptExcept
  cases x s <;> rfl

@[simp] theorem ends_bind {f : α → EStateM ε σ β} {ok : β → σ → Prop} :
    Ends (x >>= f) s ok error ↔ Ends x s (fun a s => Ends (f a) s ok error) error := by
  unfold Ends
  simp only [bind, EStateM.bind]
  cases x s <;> rfl

end EStateM
