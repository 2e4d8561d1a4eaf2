import Mathlib.Data.Nat.Basic

/-!
# Exceptions and checked accesses

The checks of the library are `YACL_ENFORCE` macros: a failed check throws `EnforceNotMet`, whose
text is made of the stringified condition and of an optional message. `YACL_THROW` throws a
`RuntimeError`, and its variants `YACL_THROW_LOGIC_ERROR`, `YACL_THROW_INVALID_FORMAT` and
`YACL_THROW_ARGUMENT_ERROR` throw an exception of the class that they name; the standard library has
exceptions of its own. The file name, the line and the stack trace that the real exceptions also
carry depend on the build and are left out.

The unchecked `operator[]` of a vector or a span is `vecGet`: an index outside the container
is **undefined behaviour** in the source and a failure here, so that a function which is
shown to return also never reads or writes outside its buffers.
-/

namespace Yacl

/-- The ways in which the modelled code fails: the exceptions that it throws, and two failures that
the source does not report, undefined behaviour and a loop without end. -/
inductive Exception where
  /-- A failed `YACL_ENFORCE`: the text of the condition and the formatted message. -/
  | enforceNotMet (condition : String) (msg : String)
  /-- `YACL_THROW`. -/
  | runtimeError (msg : String)
  /-- `YACL_THROW_LOGIC_ERROR`. -/
  | logicError (msg : String)
  /-- `YACL_THROW_INVALID_FORMAT`. -/
  | invalidFormat (msg : String)
  /-- `YACL_THROW_ARGUMENT_ERROR`. -/
  | argumentError (msg : String)
  /-- `std::out_of_range`, thrown by the `at` of a standard container. -/
  | outOfRange
  /-- `std::length_error`, thrown by the `reserve` of a standard container. -/
  | lengthError
  /-- `std::bad_alloc`, thrown by `new` if there is no memory. -/
  | badAlloc
  /-- `std::bad_variant_access`, thrown by the `get` of a variant. -/
  | badVariantAccess
  /-- An access outside a buffer: no exception of the source, but undefined behaviour. -/
  | undefinedBehaviour
  /-- A loop that never ends: no exception of the source either, but nothing comes after it. -/
  | nonTermination
deriving DecidableEq, Repr

/-- `YACL_ENFORCE(p, msg)`, where `condition` is the source text of `p`. -/
def enforce (p : Prop) [Decidable p] (condition msg : String) : Except Exception Unit :=
  if p then pure () else throw (.enforceNotMet condition msg)

variable {p : Prop}

@[simp]
theorem enforce_of_pos [Decidable p] (h : p) (condition msg : String) :
    enforce p condition msg = .ok () := by
  rw [enforce, if_pos h]
  rfl

theorem enforce_of_neg [Decidable p] (h : ¬p) (condition msg : String) :
    enforce p condition msg = .error (.enforceNotMet condition msg) := by
  rw [enforce, if_neg h]
  rfl

variable {condition msg : String}

theorem of_enforce [Decidable p] {u : Unit} (h : enforce p condition msg = .ok u) : p := by
  by_contra hp
  rw [enforce_of_neg hp] at h
  contradiction

variable {α : Type}
variable {a : α}

/-- What a check that has passed says about the computation before which it stands. -/
theorem of_enforce_bind [Decidable p] {f : Unit → Except Exception α}
    (h : (enforce p condition msg >>= f) = .ok a) : p ∧ f () = .ok a := by
  by_cases hp : p
  · rw [enforce_of_pos hp] at h
    exact ⟨hp, h⟩
  · rw [enforce_of_neg hp] at h
    exact absurd h (by rintro ⟨⟩)

/-- `YACL_ENFORCE_EQ(x, y)` and its variants for other comparisons `p` of `x` and `y`: the message
shows the two numbers. -/
def enforceThat (p : Prop) [Decidable p] (condition : String) (x y : ℕ) : Except Exception Unit :=
  enforce p condition s!"{x} vs {y}"

@[simp]
theorem enforceThat_of_pos [Decidable p] (h : p) (condition : String) (x y : ℕ) :
    enforceThat p condition x y = .ok () :=
  enforce_of_pos h _ _

/-- `YACL_ENFORCE(p, msg)` for a condition that the code after it relies on. -/
def enforceProof (p : Prop) [Decidable p] (condition msg : String) : Except Exception (PLift p) :=
  if h : p then pure ⟨h⟩ else throw (.enforceNotMet condition msg)

@[simp]
theorem enforceProof_of_pos [Decidable p] (h : p) (condition msg : String) :
    enforceProof p condition msg = .ok ⟨h⟩ := by
  rw [enforceProof, dif_pos h]
  rfl

/-- An access to memory that is defined only if `p` holds. -/
def definedIf (p : Prop) [Decidable p] : Except Exception Unit :=
  if p then pure () else throw .undefinedBehaviour

@[simp]
theorem definedIf_of_pos [Decidable p] (h : p) : definedIf p = .ok () := by
  rw [definedIf, if_pos h]
  rfl

/-- `v[i]` of a vector or a span. -/
def vecGet {α : Type} (v : List α) (i : ℕ) : Except Exception α :=
  match v[i]? with
  | some a => pure a
  | none => throw .undefinedBehaviour

/-- `v[i] = a` for a vector or a span. -/
def vecSet {α : Type} (v : List α) (i : ℕ) (a : α) : Except Exception (List α) :=
  if i < v.length then pure (v.set i a) else throw .undefinedBehaviour

/-- `if (p) v[i] = a`. -/
def vecSetIf {α : Type} (p : Prop) [Decidable p] (v : List α) (i : ℕ) (a : α) :
    Except Exception (List α) :=
  if p then vecSet v i a else pure v

variable {i : ℕ}
variable {v : List α}

theorem vecGet_of_getElem? (h : v[i]? = some a) : vecGet v i = .ok a := by
  rw [vecGet, h]
  rfl

theorem vecGet_getD (hi : i < v.length) (d : α) : vecGet v i = .ok (v.getD i d) := by
  refine vecGet_of_getElem? ?_
  rw [List.getD_eq_getElem?_getD, List.getElem?_eq_getElem hi, Option.getD_some]

theorem vecSet_of_lt (h : i < v.length) (a : α) : vecSet v i a = .ok (v.set i a) := by
  rw [vecSet, if_pos h]
  rfl

theorem getD_set {d : α} {j : ℕ} (h : i < v.length) :
    (v.set i a).getD j d = if j = i then a else v.getD j d := by
  rw [List.getD_eq_getElem?_getD, List.getD_eq_getElem?_getD]
  split
  · next hji => rw [hji, List.getElem?_set_self h]; rfl
  · next hji => rw [List.getElem?_set_ne (Ne.symm hji)]

theorem of_vecGet (h : vecGet v i = .ok a) : v[i]? = some a := by
  rw [vecGet] at h
  split at h
  · next b hb => rw [hb, ← Except.ok.inj h]
  · contradiction

theorem of_vecSet {v' : List α} (h : vecSet v i a = .ok v') : i < v.length ∧ v' = v.set i a := by
  rw [vecSet] at h
  split at h
  · next hi => exact ⟨hi, (Except.ok.inj h).symm⟩
  · contradiction

/-- After the conditional write the entry is `a`, if that is what the condition decides. -/
theorem vecSetIf_ne [DecidableEq α] {b : α} (h : v[i]? = some b) (a : α) :
    vecSetIf (b ≠ a) v i a = .ok (v.set i a) := by
  have hlt : i < v.length := (List.getElem?_eq_some_iff.mp h).1
  rw [vecSetIf]
  split
  · exact vecSet_of_lt hlt a
  · next hab =>
    obtain rfl : b = a := not_not.mp hab
    obtain ⟨_, rfl⟩ := List.getElem?_eq_some_iff.mp h
    rw [List.set_getElem_self]
    rfl

variable {β : Type}

@[simp]
theorem ok_bind (a : α) (f : α → Except Exception β) :
    (Except.ok a >>= f) = f a := rfl

section Checks

variable [Decidable p] (h : p) (f : Unit → Except Exception β)

include h

theorem enforce_bind : (enforce p condition msg >>= f) = f () := by
  rw [enforce_of_pos h, ok_bind]

theorem enforceThat_bind {x y : ℕ} : (enforceThat p condition x y >>= f) = f () := by
  rw [enforceThat_of_pos h, ok_bind]

theorem definedIf_bind : (definedIf p >>= f) = f () := by
  rw [definedIf_of_pos h, ok_bind]

end Checks

variable {x : Except Exception α}

theorem of_bind_eq_ok {f : α → Except Exception β} {b : β} (h : (x >>= f) = .ok b) :
    ∃ a, x = .ok a ∧ f a = .ok b := by
  cases x with
  | error e => exact absurd h (by rintro ⟨⟩)
  | ok a => exact ⟨a, rfl, h⟩

/-! ### Safety -/

/-- The failure is an exception of the source. -/
def Exception.IsThrown : Exception → Prop
  | undefinedBehaviour | nonTermination => False
  | _ => True

/-- **Safety**: the computation returns a value with the property, or it throws. -/
inductive Safe {α : Type} (P : α → Prop) : Except Exception α → Prop
  | ok {a : α} (h : P a) : Safe P (.ok a)
  | error {e : Exception} (h : e.IsThrown) : Safe P (.error e)

variable {P : α → Prop}

theorem Safe.of_ok (h : Safe P (.ok a)) : P a := by
  cases h with
  | ok h => exact h

theorem Safe.mono {Q : α → Prop} (h : Safe P x) (hPQ : ∀ a, P a → Q a) : Safe Q x := by
  cases h with
  | ok h => exact .ok (hPQ _ h)
  | error h => exact .error h

theorem Safe.bind {Q : β → Prop} {f : α → Except Exception β} (h : Safe P x)
    (hf : ∀ a, P a → Safe Q (f a)) : Safe Q (x >>= f) := by
  cases h with
  | ok h => exact hf _ h
  | error h => exact .error h

theorem safe_enforce_bind [Decidable p] {f : Unit → Except Exception α} (hf : p → Safe P (f ())) :
    Safe P (enforce p condition msg >>= f) := by
  by_cases hp : p
  · rw [enforce_of_pos hp]
    exact hf hp
  · rw [enforce_of_neg hp]
    exact .error trivial

/-- The rule for a loop over a list. The invariant has the elements that are still to come. -/
theorem safe_foldlM (Inv : List α → β → Prop) {f : β → α → Except Exception β}
    (hstep : ∀ a l b, Inv (a :: l) b → Safe (Inv l) (f b a)) {l : List α} {b : β} (h : Inv l b) :
    Safe (Inv []) (l.foldlM f b) := by
  induction l generalizing b with
  | nil => exact .ok h
  | cons a l ih =>
    exact (hstep a l b h).bind fun b' hb' => ih hb'

end Yacl
