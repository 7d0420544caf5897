import Packrat.Fault

/-! # Computations over a state

    `Run S ε α` changes a state `S` and ends with a value `α` or a `Halt ε`.  The
    state survives either way: a failed step keeps what it changed before it failed,
    which is what lets a caller look at the state after an error and go on from
    there.

    The only operation that turns a failure back into a value is `settle`; faults
    and exhausted fuel pass through it. -/

namespace Packrat

/-- A computation over the state `S` that yields an `α` or halts, and leaves a state in both
    cases. -/
def Run (S ε α : Type) : Type := S → Except (Halt ε) α × S

namespace Run

variable {S T ε ε' α β : Type}

instance : Monad (Run S ε) where
  pure a := fun s => (.ok a, s)
  bind m f := fun s =>
    match m s with
    | (.ok a, s') => f a s'
    | (.error h, s') => (.error h, s')

/-- Ends with `h`, the state as it is. -/
def halt (h : Halt ε) : Run S ε α := fun s => (.error h, s)

/-- Ends with a complaint about the input. -/
def fail (e : ε) : Run S ε α := halt (.failed e)

/-- Ends with a broken rule of use. -/
def fault (c : Fault) : Run S ε α := halt (.fault c)

/-- Reads something off the state. -/
def read (f : S → α) : Run S ε α := fun s => (.ok (f s), s)

/-- Changes the state. -/
def update (f : S → S) : Run S ε Unit := fun s => (.ok (), f s)

/-- Runs `m` and hands back a failure as a value.  Faults and exhausted fuel still end the run. -/
def settle (m : Run S ε α) : Run S ε (Except ε α) := fun s =>
  match m s with
  | (.ok a, s') => (.ok (.ok a), s')
  | (.error (.failed e), s') => (.ok (.error e), s')
  | (.error (.fault c), s') => (.error (.fault c), s')
  | (.error .outOfFuel, s') => (.error .outOfFuel, s')

/-- Runs a computation on a part of the state, its complaint restated by `f`. -/
def zoom (get : S → T) (set : T → S → S) (f : ε → ε') (m : Run T ε α) : Run S ε' α := fun s =>
  match m (get s) with
  | (.ok a, t) => (.ok a, set t s)
  | (.error h, t) => (.error (h.map f), set t s)

/-! ### What each operation does to a state -/

@[simp] theorem pure_apply (a : α) (s : S) : (pure a : Run S ε α) s = (.ok a, s) := rfl

@[simp] theorem halt_apply (h : Halt ε) (s : S) : (halt h : Run S ε α) s = (.error h, s) := rfl

@[simp] theorem read_apply (f : S → α) (s : S) : (read f : Run S ε α) s = (.ok (f s), s) := rfl

@[simp] theorem update_apply (f : S → S) (s : S) :
    (update f : Run S ε Unit) s = (.ok (), f s) := rfl

theorem bind_apply (m : Run S ε α) (f : α → Run S ε β) (s : S) :
    (m >>= f) s = match m s with
      | (.ok a, s') => f a s'
      | (.error h, s') => (.error h, s') := rfl

/-- After a value the run goes on. -/
theorem bind_of_ok {m : Run S ε α} {f : α → Run S ε β} {s s' : S} {a : α}
    (h : m s = (.ok a, s')) : (m >>= f) s = f a s' := by
  rw [bind_apply, h]

/-- After a halt nothing more is run. -/
theorem bind_of_error {m : Run S ε α} {f : α → Run S ε β} {s s' : S} {e : Halt ε}
    (h : m s = (.error e, s')) : (m >>= f) s = (.error e, s') := by
  rw [bind_apply, h]

/-- A value at the end means that both parts ended with one. -/
theorem bind_eq_ok {m : Run S ε α} {f : α → Run S ε β} {s s' : S} {b : β}
    (h : (m >>= f) s = (.ok b, s')) : ∃ a s₁, m s = (.ok a, s₁) ∧ f a s₁ = (.ok b, s') := by
  rcases hm : m s with ⟨_ | a, s₁⟩
  · rw [bind_of_error hm] at h
    exact nomatch h
  · rw [bind_of_ok hm] at h
    exact ⟨a, s₁, rfl, h⟩

/-- What is discarded was there. -/
theorem discard_eq_ok {m : Run S ε α} {s s' : S} {u : PUnit}
    (h : (discard m : Run S ε PUnit) s = (.ok u, s')) : ∃ a, m s = (.ok a, s') := by
  obtain ⟨a, s₁, hm, hs⟩ := bind_eq_ok (f := fun _ => pure PUnit.unit) h
  obtain rfl : s₁ = s' := congrArg Prod.snd hs
  exact ⟨a, hm⟩

theorem discard_of_ok {m : Run S ε α} {s s' : S} {a : α} (h : m s = (.ok a, s')) :
    (discard m : Run S ε PUnit) s = (.ok PUnit.unit, s') :=
  bind_of_ok (f := fun _ => pure PUnit.unit) h

theorem discard_of_error {m : Run S ε α} {s s' : S} {e : Halt ε} (h : m s = (.error e, s')) :
    (discard m : Run S ε PUnit) s = (.error e, s') :=
  bind_of_error (f := fun _ => pure PUnit.unit) h

theorem discard_apply (m : Run S ε α) (s : S) :
    (discard m : Run S ε PUnit) s = ((m s).1.map fun _ => PUnit.unit, (m s).2) := by
  rcases hm : m s with ⟨e | a, s'⟩
  · exact discard_of_error hm
  · exact discard_of_ok hm

@[simp] theorem read_bind (f : S → α) (g : α → Run S ε β) (s : S) :
    ((read f : Run S ε α) >>= g) s = g (f s) s := rfl

@[simp] theorem update_bind (f : S → S) (g : Unit → Run S ε β) (s : S) :
    ((update f : Run S ε Unit) >>= g) s = g () (f s) := rfl

/-- A value is handed back as such. -/
theorem settle_of_ok {m : Run S ε α} {s s' : S} {a : α} (h : m s = (.ok a, s')) :
    m.settle s = (.ok (.ok a), s') := by
  rw [settle, h]

/-- A complaint is handed back as a value. -/
theorem settle_of_failed {m : Run S ε α} {s s' : S} {e : ε} (h : m s = (.error (.failed e), s')) :
    m.settle s = (.ok (.error e), s') := by
  rw [settle, h]

/-- A broken rule of use is not caught. -/
theorem settle_of_fault {m : Run S ε α} {s s' : S} {c : Fault}
    (h : m s = (.error (.fault c), s')) : m.settle s = (.error (.fault c), s') := by
  rw [settle, h]

/-- Neither is exhausted fuel. -/
theorem settle_of_outOfFuel {m : Run S ε α} {s s' : S} (h : m s = (.error .outOfFuel, s')) :
    m.settle s = (.error .outOfFuel, s') := by
  rw [settle, h]

@[simp] theorem snd_settle (m : Run S ε α) (s : S) : (m.settle s).2 = (m s).2 := by
  match h : m s with
  | (.ok _, _) => rw [settle_of_ok h]
  | (.error (.failed _), _) => rw [settle_of_failed h]
  | (.error (.fault _), _) => rw [settle_of_fault h]
  | (.error .outOfFuel, _) => rw [settle_of_outOfFuel h]

instance : LawfulMonad (Run S ε) := LawfulMonad.mk' (Run S ε)
  (by
    intro α m
    funext s
    show (m >>= fun a => pure a) s = m s
    rw [bind_apply]
    rcases m s with ⟨_ | _, _⟩ <;> rfl)
  (by intros; rfl)
  (by
    intro α β γ m f g
    funext s
    show ((m >>= f) >>= g) s = (m >>= fun a => f a >>= g) s
    rw [bind_apply (m >>= f) g, bind_apply m f, bind_apply m]
    rcases m s with ⟨_ | _, _⟩ <;> rfl)

end Run

end Packrat
