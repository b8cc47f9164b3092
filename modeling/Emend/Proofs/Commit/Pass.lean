import Emend.Commit.Pass
import Emend.Proofs.Ends

namespace Emend

theorem Failure.abort?_eq_some {e : Failure} {a : Abort} :
    e.abort? = some a ↔ e = .call (.aborted a) := by
  constructor
  · intro h
    cases e with
    | call e =>
      cases e with
      | aborted b => exact congrArg _ (congrArg _ (Option.some.inj h))
      | _ => cases h
    | _ => cases h
  · rintro rfl
    rfl

namespace Pass

open EStateM

variable {σ α β : Type} (path : α → Text) (step : List Text → α → EStateM Failure σ β)
  (inv : List α → σ → Prop) {items : List α} {s : σ}

structure Stopped (policy : Policy) (p : Pass σ β) (e : Failure) (s : σ) : Prop where
  abort : ∀ a, e.abort? = some a → p.abort? = some a
  failures : e.abort? = none → p.failures ≠ []
  state : policy = .failFast → p.state = s

theorem halted_bestEffort {p : Pass σ β} : p.halted .bestEffort = false := rfl

/-- Until its first failure, a pass keeps what each step keeps. -/
theorem run_first (policy : Policy) (failed : List Text) (stop : Failure → σ → Prop)
    (hstep : ∀ a rest s, inv (a :: rest) s → (step failed a).Ends s (fun _ => inv rest) stop)
    (h : inv items s) :
    let p := run policy path step failed items s
    p.failures = [] ∧ p.abort? = none ∧ inv [] p.state ∨ ∃ e s', stop e s' ∧ Stopped policy p e s' := by
  induction items generalizing s with
  | nil => exact .inl ⟨rfl, rfl, h⟩
  | cons a rest ih =>
    have hstep := hstep a rest s h
    cases hs : step failed a s with
    | ok b s' =>
      simp only [run, hs]
      obtain hrest | ⟨e, s₁, hstop, hrest⟩ := ih (hstep.of_ok hs)
      · exact .inl hrest
      · exact .inr ⟨e, s₁, hstop, hrest.abort, hrest.failures, hrest.state⟩
    | error e s' =>
      refine .inr ⟨e, s', hstep.of_error hs, ?_⟩
      cases ha : e.abort? with
      | some a =>
        simp only [run, hs, ha]
        exact ⟨fun a' h => ha.symm.trans h, fun hn => by simp [ha] at hn, fun _ => rfl⟩
      | none =>
        cases policy with
        | failFast =>
          simp only [run, hs, ha]
          exact ⟨fun a' h => (by simp [ha] at h), fun _ => by simp, fun _ => rfl⟩
        | bestEffort =>
          simp only [run, hs, ha]
          exact ⟨fun a' h => (by simp [ha] at h), fun _ => by simp, nofun⟩

/-- What all steps keep, be they taken or not, holds after the pass. -/
theorem run_keeps (policy : Policy) (failed : List Text) (keep : σ → Prop)
    (hstep : ∀ failed, ∀ a ∈ items, ∀ s, keep s →
      (step failed a).Ends s (fun _ => keep) (fun _ => keep))
    (h : keep s) : keep (run policy path step failed items s).state := by
  induction items generalizing failed s with
  | nil => exact h
  | cons a rest ih =>
    have ih {failed : List Text} {s : σ} := @ih s failed fun failed a ha =>
      hstep failed a (List.mem_cons_of_mem _ ha)
    have hstep := hstep failed a List.mem_cons_self s h
    cases hs : step failed a s with
    | ok b s' =>
      simp only [run, hs]
      exact ih (hstep.of_ok hs)
    | error e s' =>
      have h' := hstep.of_error hs
      cases ha : e.abort? with
      | some a =>
        simp only [run, hs, ha]
        exact h'
      | none =>
        cases policy with
        | failFast =>
          simp only [run, hs, ha]
          exact h'
        | bestEffort =>
          simp only [run, hs, ha]
          exact ih h'

/-- A pass is given up for one of its items: for what the step says that failed so, from a state that all
steps before it have kept. -/
theorem run_abort (policy : Policy) (failed : List Text) (keep : σ → Prop) (cause : α → Abort → Prop)
    (hstep : ∀ failed, ∀ a ∈ items, ∀ s, keep s → (step failed a).Ends s (fun _ => keep)
      (fun e s' => keep s' ∧ ∀ b, e.abort? = some b → cause a b))
    (h : keep s) :
    let p := run policy path step failed items s
    keep p.state ∧ ∀ b, p.abort? = some b → ∃ a ∈ items, cause a b := by
  refine ⟨?_, ?_⟩
  · refine run_keeps path step policy failed keep (fun failed a ha s h => ?_) h
    exact (hstep failed a ha s h).imp_error fun _ _ h => h.1
  induction items generalizing failed s with
  | nil => exact nofun
  | cons a rest ih =>
    intro b hb
    have ih {failed : List Text} {s : σ} (h : keep s)
        (hb : (run policy path step failed rest s).abort? = some b) : ∃ a' ∈ a :: rest, cause a' b := by
      obtain ⟨a', ha', hc⟩ := @ih s failed
        (fun failed a' ha' => hstep failed a' (List.mem_cons_of_mem _ ha')) h b hb
      exact ⟨a', List.mem_cons_of_mem _ ha', hc⟩
    have hstep := hstep failed a List.mem_cons_self s h
    cases hs : step failed a s with
    | ok c s' =>
      simp only [run, hs] at hb
      exact ih (hstep.of_ok hs) hb
    | error e s' =>
      obtain ⟨h', hcause⟩ := hstep.of_error hs
      cases he : e.abort? with
      | some b' =>
        simp only [run, hs, he] at hb
        exact ⟨a, List.mem_cons_self, hcause b (he.trans hb)⟩
      | none =>
        cases policy with
        | failFast => simp [run, hs, he] at hb
        | bestEffort =>
          simp only [run, hs, he] at hb
          exact ih h' hb

theorem run_each (policy : Policy) (failed : List Text)
    (keep : List α → List (Text × Failure) → σ → Prop) {tried : List α}
    {failures : List (Text × Failure)}
    (hstep : ∀ failed tried failures, ∀ a ∈ items, ∀ s, keep tried failures s →
      (step failed a).Ends s (fun _ => keep (tried ++ [a]) failures)
        (fun e s => e.abort? = none → keep (tried ++ [a]) (failures ++ [(path a, e)]) s))
    (h : keep tried failures s) (hn : (run policy path step failed items s).abort? = none) :
    ∃ more, more <+: items ∧ keep (tried ++ more)
      (failures ++ (run policy path step failed items s).failures)
      (run policy path step failed items s).state := by
  induction items generalizing failed tried failures s with
  | nil => exact ⟨[], List.prefix_refl [], by simpa [run] using h⟩
  | cons a rest ih =>
    have ih {failed : List Text} {tried : List α} {failures : List (Text × Failure)} {s : σ} :=
      @ih s failed tried failures fun failed tried failures a ha =>
        hstep failed tried failures a (List.mem_cons_of_mem _ ha)
    have hstep := hstep failed tried failures a List.mem_cons_self s h
    cases hs : step failed a s with
    | ok b s' =>
      simp only [run, hs] at hn ⊢
      obtain ⟨more, hmore, h⟩ := ih (hstep.of_ok hs) hn
      exact ⟨a :: more, (List.prefix_cons_inj a).2 hmore, by simpa using h⟩
    | error e s' =>
      cases ha : e.abort? with
      | some a' => simp [run, hs, ha] at hn
      | none =>
        have h' := hstep.of_error hs ha
        cases policy with
        | failFast =>
          simp only [run, hs, ha]
          exact ⟨[a], (List.prefix_cons_inj a).2 List.nil_prefix, h'⟩
        | bestEffort =>
          simp only [run, hs, ha] at hn ⊢
          obtain ⟨more, hmore, h⟩ := ih h' hn
          exact ⟨a :: more, (List.prefix_cons_inj a).2 hmore, by simpa using h⟩

/-- What each step keeps of the items to come, of the results and of the paths that have failed holds
when a pass under the best-effort policy has gone through all items. -/
theorem run_bestEffort (keep : List α → List β → List Text → σ → Prop)
    (hstep : ∀ a rest done failed s, keep (a :: rest) done failed s →
      (step failed a).Ends s (fun b => keep rest (done ++ [b]) failed)
        (fun _ => keep rest done (failed ++ [path a])))
    (done : List β) (failed : List Text) (h : keep items done failed s)
    (hn : (run .bestEffort path step failed items s).abort? = none) :
    let p := run .bestEffort path step failed items s
    keep [] (done ++ p.done) (failed ++ p.failures.map (·.1)) p.state := by
  induction items generalizing done failed s with
  | nil => simpa [run] using h
  | cons a rest ih =>
    have hstep := hstep a rest done failed s h
    cases hs : step failed a s with
    | ok b s' =>
      simp only [run, hs] at hn ⊢
      simpa using ih _ _ (hstep.of_ok hs) hn
    | error e s' =>
      cases he : e.abort? with
      | some a' => simp [run, hs, he] at hn
      | none =>
        simp only [run, hs, he] at hn ⊢
        simpa using ih _ _ (hstep.of_error hs) hn

theorem run_done {γ : Type} (policy : Policy) (failed : List Text) (f : α → γ) (g : β → γ)
    (hstep : ∀ failed a s b s', step failed a s = .ok b s' → f a = g b)
    (hf : (run policy path step failed items s).failures = [])
    (ha : (run policy path step failed items s).abort? = none) :
    items.map f = (run policy path step failed items s).done.map g := by
  induction items generalizing s with
  | nil => rfl
  | cons a rest ih =>
    cases hs : step failed a s with
    | ok b s' =>
      simp only [run, hs] at hf ha ⊢
      rw [List.map_cons, List.map_cons, hstep failed a s b s' hs, ih hf ha]
    | error e s' =>
      cases he : e.abort? with
      | some a => simp [run, hs, he] at ha
      | none => cases policy <;> simp [run, hs, he] at hf

theorem ofExcept_eq_ok {r : Except Failure β} {b : β} {s s' : σ}
    (h : (ofExcept r : EStateM Failure σ β) s = .ok b s') : r = .ok b := by
  cases r with
  | ok b' =>
    cases h
    rfl
  | error e => cases h

theorem done_ofExcept (policy : Policy) (failed : List Text) (f : α → Except Failure β)
    (items : List α) (s : σ) :
    ∃ as : List α, as.Sublist items ∧
      as.map f = (run policy path (fun _ a => ofExcept (f a)) failed items s).done.map Except.ok := by
  induction items generalizing failed s with
  | nil => exact ⟨[], .slnil, rfl⟩
  | cons a rest ih =>
    cases hs : (ofExcept (f a) : EStateM Failure σ β) s with
    | ok b s' =>
      simp only [run, hs]
      obtain ⟨as, has, hmap⟩ := ih failed s'
      exact ⟨a :: as, has.cons_cons a, by rw [List.map_cons, List.map_cons, ofExcept_eq_ok hs, hmap]⟩
    | error e s' =>
      cases he : e.abort? with
      | some a' =>
        simp only [run, hs, he]
        exact ⟨[], List.nil_sublist _, rfl⟩
      | none =>
        cases policy with
        | failFast =>
          simp only [run, hs, he]
          exact ⟨[], List.nil_sublist _, rfl⟩
        | bestEffort =>
          simp only [run, hs, he]
          obtain ⟨as, has, hmap⟩ := ih (failed ++ [path a]) s'
          exact ⟨as, has.cons a, hmap⟩

theorem mem_done_ofExcept (policy : Policy) (failed : List Text) (f : α → Except Failure β) (s : σ)
    {b : β} (h : b ∈ (run policy path (fun _ a => ofExcept (f a)) failed items s).done) :
    ∃ a ∈ items, f a = .ok b := by
  obtain ⟨as, has, hmap⟩ := done_ofExcept path policy failed f items s
  have hb : .ok b ∈ as.map f := hmap ▸ List.mem_map_of_mem h
  obtain ⟨a, ha, hfa⟩ := List.mem_map.1 hb
  exact ⟨a, has.subset ha, hfa⟩

theorem abort_ofExcept (policy : Policy) (failed : List Text) (f : α → Except Failure β) (s : σ)
    {b : Abort}
    (h : (run policy path (fun _ a => ofExcept (f a)) failed items s).abort? = some b) :
    ∃ a ∈ items, f a = .error (.call (.aborted b)) := by
  have hstep : ∀ a (s : σ), (ofExcept (f a) : EStateM Failure σ β).Ends s (fun _ _ => True)
      (fun e _ => True ∧ ∀ b, e.abort? = some b → f a = .error (.call (.aborted b))) := by
    intro a s
    cases hf : f a with
    | ok b => exact True.intro
    | error e => exact ⟨trivial, fun b hb => congrArg _ (Failure.abort?_eq_some.1 hb)⟩
  exact (run_abort path _ policy failed (fun _ => True)
    (fun a b => f a = .error (.call (.aborted b))) (fun _ a _ s _ => hstep a s) trivial).2 b h

theorem bestEffort_ofExcept (f : α → Except Failure β) (s : σ)
    (hn : (run .bestEffort path (fun _ a => ofExcept (f a)) [] items s).abort? = none) :
    let p := run .bestEffort path (fun _ a => ofExcept (f a)) [] items s
    (∀ a ∈ items, ∀ b, f a = .ok b → b ∈ p.done) ∧
      ∀ x ∈ p.failures.map (·.1), ∃ a ∈ items, path a = x ∧ ∃ e, f a = .error e := by
  let keep (rest : List α) (done : List β) (failed : List Text) (_ : σ) : Prop :=
    (∀ a ∈ rest, a ∈ items) ∧ (∀ a ∈ items, a ∈ rest ∨ ∀ b, f a = .ok b → b ∈ done) ∧
      ∀ x ∈ failed, ∃ a ∈ items, path a = x ∧ ∃ e, f a = .error e
  have hstep : ∀ a rest done failed s, keep (a :: rest) done failed s →
      (ofExcept (f a) : EStateM Failure σ β).Ends s (fun b => keep rest (done ++ [b]) failed)
        (fun _ => keep rest done (failed ++ [path a])) := by
    rintro a rest done failed s ⟨hrest, hdone, hfailed⟩
    obtain ⟨ha, hrest⟩ := List.forall_mem_cons.1 hrest
    cases hf : f a with
    | ok b =>
      refine ⟨hrest, fun a' ha' => ?_, hfailed⟩
      obtain hmem | hdone := hdone a' ha'
      · obtain rfl | hmem := List.mem_cons.1 hmem
        · refine .inr fun b' hb' => ?_
          obtain rfl := Except.ok.inj (hf.symm.trans hb')
          simp
        · exact .inl hmem
      · exact .inr fun b' hb' => List.mem_append_left _ (hdone b' hb')
    | error e =>
      refine ⟨hrest, fun a' ha' => ?_, fun x hx => ?_⟩
      · obtain hmem | hdone := hdone a' ha'
        · obtain rfl | hmem := List.mem_cons.1 hmem
          · refine .inr fun b' hb' => ?_
            rw [hf] at hb'
            cases hb'
          · exact .inl hmem
        · exact .inr hdone
      · obtain hx | hx := List.mem_append.1 hx
        · exact hfailed x hx
        · exact ⟨a, ha, (List.mem_singleton.1 hx).symm, e, hf⟩
  have hstart : keep items [] [] s := ⟨fun _ ha => ha, fun _ ha => .inl ha, nofun⟩
  obtain ⟨-, hdone, hfailed⟩ := run_bestEffort path _ keep hstep [] [] hstart hn
  rw [List.nil_append] at hdone hfailed
  exact ⟨fun a ha b hb => ((hdone a ha).resolve_left List.not_mem_nil) b hb, hfailed⟩

theorem run_ofExcept (policy : Policy) (failed : List Text) (f : α → Except Failure β) (s : σ)
    {bs : List β} (h : items.map f = bs.map .ok) :
    run policy path (fun _ a => ofExcept (f a)) failed items s =
      { state := s, done := bs, failures := [] } := by
  induction items generalizing bs with
  | nil =>
    obtain rfl := List.map_eq_nil_iff.1 h.symm
    rfl
  | cons a rest ih =>
    cases bs with
    | nil => cases h
    | cons b bs =>
      obtain ⟨hf, h⟩ := List.cons.inj h
      have hs : (ofExcept (.ok b) : EStateM Failure σ β) s = .ok b s := rfl
      simp only [run, hf, hs, ih h]

end Pass

end Emend
