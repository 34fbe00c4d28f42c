import Mathlib.Logic.Basic

/-!
# Outcomes of fallible state-passing code

A Rust function `fn f(&mut self, ..) -> Result<T, E>` keeps what it already
wrote when it returns early with `Err`, so it is an `EStateM` computation: both
outcomes carry the state. `wp x Q E s` says that `x` run from `s` ends in `Q`
when it returns a value and in `E` when it fails. There is no divergence to
exclude, since every computation here is a total function; the rules below
rewrite a goal about a composite computation into goals about its parts.
-/

namespace HavyOs.Lib

universe u

variable {ε σ τ α β : Type u} (x : EStateM ε σ α)

/-- `x` from `s` returns into `Q` or fails into `E`. -/
def wp (Q : α → σ → Prop) (E : ε → σ → Prop) (s : σ) : Prop :=
  match x s with
  | .ok a s' => Q a s'
  | .error e s' => E e s'

variable {f : α → EStateM ε σ β}

section Rules

variable {Q : α → σ → Prop} {R : β → σ → Prop} {E : ε → σ → Prop} {s : σ}

@[simp] theorem wp_pure (a : α) : wp (pure a : EStateM ε σ α) Q E s ↔ Q a s := Iff.rfl

@[simp] theorem wp_throw (e : ε) : wp (throw e : EStateM ε σ α) Q E s ↔ E e s := Iff.rfl

@[simp] theorem wp_bind (f : α → EStateM ε σ β) :
    wp (x >>= f) R E s ↔ wp x (fun a s' => wp (f a) R E s') E s := by
  simp only [wp, bind, EStateM.bind]
  cases x s <;> rfl

@[simp] theorem wp_map (f : α → β) : wp (f <$> x) R E s ↔ wp x (fun a s' => R (f a) s') E s := by
  simp only [wp, Functor.map, EStateM.map]
  cases x s <;> rfl

@[simp] theorem wp_get {Q : σ → σ → Prop} : wp (get : EStateM ε σ σ) Q E s ↔ Q s s := Iff.rfl

@[simp] theorem wp_set {Q : PUnit → σ → Prop} (s' : σ) : wp (set s' : EStateM ε σ PUnit) Q E s ↔ Q ⟨⟩ s' := Iff.rfl

@[simp] theorem wp_modify {Q : PUnit → σ → Prop} (f : σ → σ) :
    wp (modify f : EStateM ε σ PUnit) Q E s ↔ Q ⟨⟩ (f s) := Iff.rfl

/-- A handler runs from the state the failure left: nothing is rolled back. -/
theorem wp_tryCatch (h : ε → EStateM ε σ α) :
    wp (tryCatch x h) Q E s ↔ wp x Q (fun e s' => wp (h e) Q E s') s := by
  simp only [wp, tryCatch, tryCatchThe, MonadExceptOf.tryCatch]
  delta EStateM.tryCatch
  cases x s <;> rfl

/-- `x.ok()`: a failure becomes `none`, and the state it left stays. -/
def attempt : EStateM ε σ (Option α) := tryCatch (some <$> x) fun _ => pure none

theorem wp_attempt {Q : Option α → σ → Prop} (x : EStateM ε σ α) :
    wp (attempt x) Q E s ↔ wp x (fun a s' => Q (some a) s') (fun _ s' => Q none s') s := by
  simp [attempt, wp_tryCatch]

/-- The outcome of `x` as a value, looked at later. -/
def capture : EStateM ε σ (Except ε α) := tryCatch (.ok <$> x) fun e => pure (.error e)

theorem wp_capture {Q : Except ε α → σ → Prop} (x : EStateM ε σ α) :
    wp (capture x) Q E s ↔ wp x (fun a s' => Q (.ok a) s') (fun e s' => Q (.error e) s') s := by
  simp [capture, wp_tryCatch]

variable {x : EStateM ε σ α} {a : α} {s' : σ} {Q' : α → σ → Prop}

theorem wp_mono {E' : ε → σ → Prop} (h : wp x Q E s)
    (ok : ∀ a s', Q a s' → Q' a s') (err : ∀ e s', E e s' → E' e s') : wp x Q' E' s := by
  unfold wp at h ⊢
  cases hx : x s with
  | ok a s' => rw [hx] at h; exact ok a s' h
  | error e s' => rw [hx] at h; exact err e s' h

theorem wp_imp (h : wp x Q E s) (ok : ∀ a s', Q a s' → Q' a s') : wp x Q' E s :=
  wp_mono h ok fun _ _ failed => failed

theorem wp_and {E' : ε → σ → Prop} (h : wp x Q E s) (k : wp x Q' E' s) :
    wp x (fun a s' => Q a s' ∧ Q' a s') (fun e s' => E e s' ∧ E' e s') s := by
  unfold wp at h k ⊢
  cases run : x s with
  | ok a s' =>
    rw [run] at h k
    exact ⟨h, k⟩
  | error e s' =>
    rw [run] at h k
    exact ⟨h, k⟩

theorem wp_of_forall (ok : ∀ a s', Q a s') (err : ∀ e s', E e s') : wp x Q E s := by
  unfold wp
  cases x s with
  | ok a s' => exact ok a s'
  | error e s' => exact err e s'

/-- The value and final state of a returning run satisfy the postcondition. -/
theorem wp_of_ok (h : wp x Q E s) (run : x s = .ok a s') : Q a s' := by
  simpa only [wp, run] using h

/-- The error and final state of a failing run satisfy the error condition. -/
theorem wp_of_error {e : ε} (h : wp x Q E s) (run : x s = .error e s') : E e s' := by
  simpa only [wp, run] using h

theorem wp_run_eq {y : EStateM ε σ α} {t : σ} (same : x s = y t) : wp x Q E s ↔ wp y Q E t := by
  simp [wp, same]

theorem wp_run_ok (run : x s = .ok a s') : wp x Q E s ↔ Q a s' := by
  simp [wp, run]

/-- A computation whose failures are excluded returns. -/
theorem wp_returns (h : wp x Q (fun _ _ => False) s) : ∃ a s', x s = .ok a s' ∧ Q a s' := by
  unfold wp at h
  cases hx : x s with
  | ok a s' => exact ⟨a, s', rfl, by simpa only [hx] using h⟩
  | error e s' => rw [hx] at h; exact h.elim

/-- A computation whose returns are excluded fails. -/
theorem wp_fails (h : wp x (fun _ _ => False) E s) : ∃ e s', x s = .error e s' ∧ E e s' := by
  unfold wp at h
  cases run : x s with
  | ok a s' => rw [run] at h; exact h.elim
  | error e s' => exact ⟨e, s', rfl, by simpa only [run] using h⟩

theorem bind_ok (f : α → EStateM ε σ β) (run : x s = .ok a s') : (x >>= f) s = f a s' := by
  simp [bind, EStateM.bind, run]

theorem get_bind (f : σ → EStateM ε σ β) : (get >>= f) s = f s s := rfl

theorem bind_error {e : ε} (f : α → EStateM ε σ β) (run : x s = .error e s') : (x >>= f) s = .error e s' := by
  simp [bind, EStateM.bind, run]

/-- The parts of a computation that returns. -/
theorem returns_of_bind {b : β} {s₂ : σ} (ran : (x >>= f) s = .ok b s₂) :
    ∃ a s', x s = .ok a s' ∧ f a s' = .ok b s₂ := by
  cases run : x s with
  | ok a s' => exact ⟨a, s', rfl, (bind_ok f run).symm.trans ran⟩
  | error e s' => cases (bind_error f run).symm.trans ran

/-- What is seen of a run that returns. -/
def returned (view : α → σ → β) : EStateM.Result ε σ α → Option β
  | .ok a s' => some (view a s')
  | .error _ _ => none

theorem returned_eq {view : α → σ → β} {result : EStateM.Result ε σ α} {b : β} (sees : returned view result = some b) :
    ∃ a s', result = .ok a s' ∧ view a s' = b := by
  cases result with
  | ok a s' => exact ⟨a, s', rfl, Option.some.inj sees⟩
  | error e s' => cases sees

end Rules

/-- The parts of a computation without a state that returns. -/
theorem ok_of_bind {x : Except ε α} {f : α → Except ε β} {b : β} (ran : x >>= f = .ok b) :
    ∃ a, x = .ok a ∧ f a = .ok b := by
  cases x with
  | error e => cases ran
  | ok a => exact ⟨a, rfl, ran⟩

/-! ## Running on a part of the state -/

/-- Run `x` on the component of the state that `view` reads and `put` writes back. -/
def zoom (view : σ → τ) (put : τ → σ → σ) (x : EStateM ε τ α) : EStateM ε σ α := fun s =>
  match x (view s) with
  | .ok a t => .ok a (put t s)
  | .error e t => .error e (put t s)

variable {put : τ → σ → σ}

@[simp] theorem wp_zoom {view : σ → τ} {x : EStateM ε τ α} {Q : α → σ → Prop} {E : ε → σ → Prop}
    {s : σ} : wp (zoom view put x) Q E s ↔ wp x (fun a t => Q a (put t s)) (fun e t => E e (put t s)) (view s) := by
  simp only [wp, zoom]
  cases x (view s) <;> rfl

theorem zoom_ok {view : σ → τ} {x : EStateM ε τ α} {s : σ} {a : α} {t : τ} (run : x (view s) = .ok a t) :
    zoom view put x s = .ok a (put t s) := by
  simp [zoom, run]

/-! ## Invariants of computations -/

section Invariants

variable {I : σ → Prop}

/-- `x` leads from states with `I` to states with `I`, whether it returns or fails. -/
def Keeps (I : σ → Prop) (x : EStateM ε σ α) : Prop := ∀ s, I s → wp x (fun _ => I) (fun _ => I) s

/-- The state `x` ends in, on either way. -/
def Leaves (s s' : σ) : Prop := (∃ a, x s = .ok a s') ∨ ∃ e, x s = .error e s'

theorem Keeps.leaves {x : EStateM ε σ α} (keeps : Keeps I x) {s s' : σ} (start : I s) (left : Leaves x s s') :
    I s' := by
  rcases left with ⟨a, returned⟩ | ⟨e, failed⟩
  · exact wp_of_ok (keeps s start) returned
  · exact wp_of_error (keeps s start) failed

theorem Keeps.pure (a : α) : Keeps I (pure a : EStateM ε σ α) := fun _ start => start

theorem Keeps.throw (e : ε) : Keeps I (throw e : EStateM ε σ α) := fun _ start => start

theorem Keeps.modify {f : σ → σ} (kept : ∀ s, I s → I (f s)) : Keeps I (modify f : EStateM ε σ PUnit) := kept

theorem Keeps.bind {x : EStateM ε σ α} (first : Keeps I x) (later : ∀ a, Keeps I (f a)) :
    Keeps I (x >>= f) := by
  intro s start
  rw [wp_bind]
  exact wp_mono (first s start) (fun a s' kept => later a s' kept) fun _ _ kept => kept

/-- The answer is looked at. -/
theorem Keeps.bindOption {x : EStateM ε σ (Option α)} {f : Option α → EStateM ε σ β} (first : Keeps I x)
    (missing : Keeps I (f none)) (found : ∀ a, Keeps I (f (some a))) : Keeps I (x >>= f) :=
  first.bind (Option.forall.mpr ⟨missing, found⟩)

/-- What follows a `get` may use that the state it read has the invariant. -/
theorem Keeps.get_bind {f : σ → EStateM ε σ β} (later : ∀ s, I s → wp (f s) (fun _ => I) (fun _ => I) s) :
    Keeps I (get >>= f) := by
  intro s start
  exact later s start

theorem Keeps.attempt {x : EStateM ε σ α} (keeps : Keeps I x) : Keeps I (attempt x) := by
  intro s start
  rw [wp_attempt]
  exact keeps s start

theorem Keeps.zoom {view : σ → τ} {x : EStateM ε τ α} {J : σ → τ → Prop}
    (keeps : ∀ s, I s → Keeps (J s) x) (seen : ∀ s, I s → J s (view s)) (back : ∀ s t, I s → J s t → I (put t s)) :
    Keeps I (zoom view put x) := by
  intro s start
  rw [wp_zoom]
  exact wp_mono (keeps s start _ (seen s start)) (fun _ t kept => back s t start kept) fun _ t kept =>
    back s t start kept

end Invariants

/-! ## A part of the state -/

section Erasure

variable {view : σ → τ}

/-- The outcome with a part of the state only. -/
def shown (view : σ → τ) : EStateM.Result ε σ α → EStateM.Result ε τ α
  | .ok a s => .ok a (view s)
  | .error e s => .error e (view s)

/-- `x` does on a part of the state what `y` does, whatever the rest is. -/
def Erases (view : σ → τ) (x : EStateM ε σ α) (y : EStateM ε τ α) : Prop := ∀ s, y (view s) = shown view (x s)

theorem Erases.pure (a : α) : Erases (ε := ε) view (Pure.pure a) (Pure.pure a) := fun _ => rfl

theorem Erases.bind {x : EStateM ε σ α} {y : EStateM ε τ α} {g : α → EStateM ε τ β}
    (first : Erases view x y) (next : ∀ a, Erases view (f a) (g a)) : Erases view (x >>= f) (y >>= g) := by
  intro s
  have here := first s
  simp only [Bind.bind, EStateM.bind]
  cases run : x s with
  | ok a s' =>
    rw [run] at here
    rw [here]
    exact next a s'
  | error e s' =>
    rw [run] at here
    rw [here]
    rfl

/-- A step that leaves the part alone does nothing on it. -/
theorem Erases.silent {x : EStateM ε σ PUnit} {f : PUnit → EStateM ε σ β} {y : EStateM ε τ β}
    (quiet : ∀ s, ∃ s', x s = .ok ⟨⟩ s' ∧ view s' = view s) (next : Erases view (f ⟨⟩) y) :
    Erases view (x >>= f) y := by
  intro s
  obtain ⟨s', run, same⟩ := quiet s
  simp only [Bind.bind, EStateM.bind, run]
  rw [← same]
  exact next s'

theorem Erases.zoom (back : ∀ t s, view (put t s) = t) (x : EStateM ε τ α) :
    Erases view (zoom view put x) x := by
  intro s
  unfold Lib.zoom
  cases x (view s) with
  | ok a t => exact congrArg (EStateM.Result.ok a) (back t s).symm
  | error e t => exact congrArg (EStateM.Result.error e) (back t s).symm

end Erasure

end HavyOs.Lib
