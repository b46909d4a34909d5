/-
Programs that change a state and may fail: how they run, what they keep, and when
they succeed.  A failure leaves the state that was reached, so a program keeps a
property when it holds after every run, failed or not.
-/

namespace Espalier.Program

variable {ε ε' σ α β : Type}

/-- The state after a run. -/
def stateAfter : EStateM.Result ε σ α → σ
  | .ok _ s => s
  | .error _ s => s

section Run

theorem get_run (s : σ) : (get : EStateM ε σ σ) s = .ok s s := rfl

theorem throw_run (e : ε) (s : σ) : (throw e : EStateM ε σ α) s = .error e s := rfl

theorem ofExcept_ok_run (a : α) (s : σ) :
    (ofExcept (.ok a : Except ε α) : EStateM ε σ α) s = .ok a s := rfl

theorem ofExcept_error_run (e : ε) (s : σ) :
    (ofExcept (.error e : Except ε α) : EStateM ε σ α) s = .error e s := rfl

theorem bind_of_ok {x : EStateM ε σ α} {s s' : σ} {a : α} (h : x s = .ok a s')
    (f : α → EStateM ε σ β) : (x >>= f) s = f a s' := by
  simp only [bind, EStateM.bind, h]

theorem bind_of_error {x : EStateM ε σ α} {s s' : σ} {e : ε} (h : x s = .error e s')
    (f : α → EStateM ε σ β) : (x >>= f) s = .error e s' := by
  simp only [bind, EStateM.bind, h]

theorem exists_of_bind_ok {x : EStateM ε σ α} {f : α → EStateM ε σ β} {s s' : σ} {b : β}
    (h : (x >>= f) s = .ok b s') : ∃ a middle, x s = .ok a middle ∧ f a middle = .ok b s' := by
  cases hrun : x s with
  | ok a middle =>
      rw [bind_of_ok hrun] at h
      exact ⟨a, middle, rfl, h⟩
  | error e middle =>
      rw [bind_of_error hrun] at h
      contradiction

theorem adaptExcept_of_ok {x : EStateM ε σ α} {s s' : σ} {a : α} (h : x s = .ok a s')
    (rename : ε → ε') : x.adaptExcept rename s = .ok a s' := by
  simp only [EStateM.adaptExcept, h]

theorem adaptExcept_of_error {x : EStateM ε σ α} {s s' : σ} {e : ε} (h : x s = .error e s')
    (rename : ε → ε') : x.adaptExcept rename s = .error (rename e) s' := by
  simp only [EStateM.adaptExcept, h]

/-- Renaming the errors of a program renames those of its parts. -/
theorem adaptExcept_bind (rename : ε → ε') (x : EStateM ε σ α)
    (f : α → EStateM ε σ β) :
    (x >>= f).adaptExcept rename =
      x.adaptExcept rename >>= fun a => (f a).adaptExcept rename := by
  funext s
  simp only [EStateM.adaptExcept, bind, EStateM.bind]
  cases x s <;> rfl

theorem exceptBind_of_ok {x : Except ε α} {a : α} (h : x = .ok a) (f : α → Except ε β) :
    (x >>= f) = f a := by
  rw [h]
  rfl

theorem exceptBind_of_error {x : Except ε α} {e : ε} (h : x = .error e)
    (f : α → Except ε β) : (x >>= f) = .error e := by
  rw [h]
  rfl

/-- A query that fails under some conditions, each with an error of its own, and
under no others. -/
theorem except_eq_error_iff {x : Except ε α} {Refused : ε → Prop}
    (herror : ∀ e, Refused e → x = .error e) (hok : (∀ e, ¬ Refused e) → ∃ a, x = .ok a)
    (e : ε) : x = .error e ↔ Refused e := by
  constructor
  · intro hfail
    by_cases hany : ∃ e', Refused e'
    · obtain ⟨e', he'⟩ := hany
      have heq := herror e' he'
      rw [hfail] at heq
      obtain rfl := Except.error.inj heq
      exact he'
    · obtain ⟨a, ha⟩ := hok (not_exists.mp hany)
      rw [hfail] at ha
      contradiction
  · exact herror e

/-- A program that fails under some conditions, each with an error of its own and
before it changes anything, and under no others. -/
theorem run_eq_error_iff {x : EStateM ε σ α} {s : σ} {Refused : ε → Prop}
    (herror : ∀ e, Refused e → x s = .error e s)
    (hok : (∀ e, ¬ Refused e) → ∃ a s', x s = .ok a s') (e : ε) (s' : σ) :
    x s = .error e s' ↔ Refused e ∧ s' = s := by
  constructor
  · intro hfail
    by_cases hany : ∃ e', Refused e'
    · obtain ⟨e', he'⟩ := hany
      have heq := herror e' he'
      rw [hfail] at heq
      obtain ⟨rfl, rfl⟩ := EStateM.Result.error.inj heq
      exact ⟨he', rfl⟩
    · obtain ⟨a, after, hrun⟩ := hok (not_exists.mp hany)
      rw [hfail] at hrun
      contradiction
  · rintro ⟨he, rfl⟩
    exact herror e he

end Run

/-- A program keeps a property of the state, also when it fails. -/
def Keeps (P : σ → Prop) (x : EStateM ε σ α) : Prop :=
  ∀ s, P s → P (stateAfter (x s))

namespace Keeps

variable {P : σ → Prop}

theorem pure (a : α) : Keeps P (pure a : EStateM ε σ α) :=
  fun _ hs => hs

theorem throw (e : ε) : Keeps P (throw e : EStateM ε σ α) :=
  fun _ hs => hs

theorem bind {x : EStateM ε σ α} {f : α → EStateM ε σ β} (hx : Keeps P x)
    (hf : ∀ a, Keeps P (f a)) : Keeps P (x >>= f) := by
  intro s hs
  have hmiddle := hx s hs
  cases hrun : x s with
  | ok a s' =>
      rw [bind_of_ok hrun]
      rw [hrun] at hmiddle
      exact hf a s' hmiddle
  | error e s' =>
      rw [bind_of_error hrun]
      rw [hrun] at hmiddle
      exact hmiddle

theorem get : Keeps P (get : EStateM ε σ σ) :=
  fun _ hs => hs

theorem modify {f : σ → σ} (hf : ∀ s, P s → P (f s)) :
    Keeps P (modify f : EStateM ε σ Unit) :=
  hf

theorem ofExcept (x : Except ε α) : Keeps P (ofExcept x : EStateM ε σ α) := by
  cases x with
  | ok a => exact pure a
  | error e => exact throw e

theorem forM {f : α → EStateM ε σ Unit} (hf : ∀ a, Keeps P (f a)) (items : List α) :
    Keeps P (items.forM f) := by
  induction items with
  | nil => exact pure ()
  | cons a rest ih => exact (hf a).bind fun _ => ih

theorem adaptExcept {x : EStateM ε σ α} (hx : Keeps P x) (rename : ε → ε') :
    Keeps P (x.adaptExcept rename) := by
  intro s hs
  have hafter := hx s hs
  simp only [EStateM.adaptExcept]
  cases hrun : x s <;> rw [hrun] at hafter <;> exact hafter

end Keeps

/-- Whatever a program answers with has a property. -/
def Returns (P : α → Prop) (x : EStateM ε σ α) : Prop :=
  ∀ s a s', x s = .ok a s' → P a

namespace Returns

variable {P : α → Prop} {x : EStateM ε σ α}

theorem pure {a : α} (h : P a) : Returns P (pure a : EStateM ε σ α) := by
  intro s b s' hrun
  obtain ⟨rfl, rfl⟩ := EStateM.Result.ok.inj hrun
  exact h

theorem bind {Q : β → Prop} {f : α → EStateM ε σ β} (hx : Returns P x)
    (hf : ∀ a, P a → Returns Q (f a)) : Returns Q (x >>= f) := by
  intro s b s' hrun
  obtain ⟨a, middle, hmiddle, hrest⟩ := exists_of_bind_ok hrun
  exact hf a (hx s a middle hmiddle) middle b s' hrest

theorem trivial (x : EStateM ε σ α) : Returns (fun _ => True) x :=
  fun _ _ _ _ => True.intro

/-- Programs that go on alike from whatever a program answers with are alike. -/
theorem bind_congr (hx : Returns P x) {f g : α → EStateM ε σ β}
    (h : ∀ a, P a → f a = g a) : x >>= f = x >>= g := by
  funext s
  cases hrun : x s with
  | ok a middle => rw [bind_of_ok hrun, bind_of_ok hrun, h a (hx s a middle hrun)]
  | error e middle => rw [bind_of_error hrun, bind_of_error hrun]

end Returns

/-- A program succeeds in every state. -/
def Succeeds (x : EStateM ε σ α) : Prop :=
  ∀ s, ∃ a s', x s = .ok a s'

namespace Succeeds

theorem pure (a : α) : Succeeds (pure a : EStateM ε σ α) :=
  fun s => ⟨a, s, rfl⟩

theorem bind {x : EStateM ε σ α} {f : α → EStateM ε σ β} (hx : Succeeds x)
    (hf : ∀ a, Succeeds (f a)) : Succeeds (x >>= f) := by
  intro s
  obtain ⟨a, middle, hmiddle⟩ := hx s
  obtain ⟨b, after, hafter⟩ := hf a middle
  exact ⟨b, after, by rw [bind_of_ok hmiddle, hafter]⟩

theorem modify (f : σ → σ) : Succeeds (modify f : EStateM ε σ Unit) :=
  fun s => ⟨(), f s, rfl⟩

theorem forM {f : α → EStateM ε σ Unit} {items : List α} (hf : ∀ a ∈ items, Succeeds (f a)) :
    Succeeds (items.forM f) := by
  induction items with
  | nil => exact pure ()
  | cons a rest ih =>
      have hfirst := hf a List.mem_cons_self
      exact hfirst.bind fun _ => ih fun b hb => hf b (List.mem_cons_of_mem a hb)

theorem forM_option {f : α → EStateM ε σ Unit} (hf : ∀ a, Succeeds (f a))
    (o : Option α) : Succeeds (o.forM f) := by
  cases o with
  | none => exact pure ()
  | some a => exact hf a

end Succeeds

end Espalier.Program
