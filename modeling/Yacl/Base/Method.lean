import Yacl.Base.Exception

/-!
# Methods of objects

A method changes the members of an object and may throw. What it has changed before it throws stays
changed, so a method is a function from an object to a result **and** an object.
-/

namespace Yacl

/-- A method of the objects of type `σ`. A method that throws keeps what it has changed before. -/
abbrev Method (σ α : Type) : Type := ExceptT Exception (StateM σ) α

namespace Method

variable {σ α β : Type}

/-- A call: the result or the exception, and the object after it. -/
def call (m : Method σ α) (s : σ) : Except Exception α × σ := (ExceptT.run m).run s

@[simp]
theorem call_get (s : σ) : call (get : Method σ σ) s = (.ok s, s) := rfl

@[simp]
theorem call_modify (f : σ → σ) (s : σ) : call (modify f : Method σ Unit) s = (.ok (), f s) := rfl

@[simp]
theorem call_liftM (x : Except Exception α) (s : σ) : call (liftM x : Method σ α) s = (x, s) := rfl

theorem call_bind (m : Method σ α) (f : α → Method σ β) (s : σ) :
    call (m >>= f) s =
      match m.call s with
      | (.ok a, s') => (f a).call s'
      | (.error e, s') => (.error e, s') := by
  have hbind : call (m >>= f) s =
      (ExceptT.bindCont f (m.call s).1 : StateM σ _).run (m.call s).2 := rfl
  rw [hbind]
  rcases m.call s with ⟨_ | _, _⟩ <;> rfl

theorem call_bind_ok {m : Method σ α} {s s' : σ} {a : α} (h : m.call s = (.ok a, s'))
    (f : α → Method σ β) : call (m >>= f) s = (f a).call s' := by
  rw [call_bind, h]

theorem call_bind_error {m : Method σ α} {s s' : σ} {e : Exception} (h : m.call s = (.error e, s'))
    (f : α → Method σ β) : call (m >>= f) s = (.error e, s') := by
  rw [call_bind, h]

/-- **A sequence that returns** is made of methods that return. -/
theorem of_call_bind_ok {m : Method σ α} {f : α → Method σ β} {s s' : σ} {b : β}
    (h : call (m >>= f) s = (.ok b, s')) :
    ∃ a s₁, m.call s = (.ok a, s₁) ∧ (f a).call s₁ = (.ok b, s') := by
  rw [call_bind] at h
  rcases hm : m.call s with ⟨_ | a, s₁⟩ <;> rw [hm] at h
  · injection h with h
    contradiction
  · exact ⟨a, s₁, rfl, h⟩

end Method

end Yacl
