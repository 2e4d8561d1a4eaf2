import Mathlib.Data.Set.Insert

/-!
# Straight line programs

A program is a list of instructions, each of which computes the value of one register from the
values of others. It is read in two ways: as commands that are **executed** one after another
(`exec`), and as equations that an assignment **solves** (`Solves`).

In a program that is **ordered**, every instruction reads registers that are defined before it and
defines a new one. Then the two readings agree: execution solves the equations (`solves_exec`), and
any solution that agrees with it on the inputs agrees with it on all defined registers
(`exec_eq_of_solves`).
-/

namespace StraightLine

variable {ι V : Type*}

/-- An instruction: the register `out` gets a value that depends on the registers of `reads`. -/
structure Instr (ι V : Type*) where
  out : ι
  reads : Set ι
  value : (ι → V) → V
  value_congr : ∀ {f g : ι → V}, (∀ a ∈ reads, f a = g a) → value f = value g

/-- The instructions as equations. -/
def Solves (f : ι → V) (cs : List (Instr ι V)) : Prop := ∀ c ∈ cs, f c.out = c.value f

/-- Every instruction reads what is defined and defines something new. -/
def Ordered (D : Set ι) : List (Instr ι V) → Prop
  | [] => True
  | c :: cs => (c.reads ⊆ D ∧ c.out ∉ D) ∧ Ordered (insert c.out D) cs

/-- The registers that are defined after the program. -/
def defined (D : Set ι) (cs : List (Instr ι V)) : Set ι := {a | a ∈ D ∨ ∃ c ∈ cs, c.out = a}

theorem defined_cons (D : Set ι) (c : Instr ι V) (cs : List (Instr ι V)) :
    defined D (c :: cs) = defined (insert c.out D) cs := by
  ext a
  simp only [defined, Set.mem_ofPred_eq, Set.mem_insert_iff, List.mem_cons, exists_eq_or_imp,
    eq_comm (a := a)]
  rw [or_left_comm, or_assoc]

variable [DecidableEq ι]

/-- The instructions as commands. -/
def exec (f : ι → V) : List (Instr ι V) → ι → V
  | [] => f
  | c :: cs => exec (Function.update f c.out (c.value f)) cs

variable {D : Set ι} {cs : List (Instr ι V)}

theorem exec_of_mem (h : Ordered D cs) (f : ι → V) {a : ι} (ha : a ∈ D) : exec f cs a = f a := by
  induction cs generalizing D f with
  | nil => rfl
  | cons c cs ih =>
    obtain ⟨⟨-, hout⟩, hrest⟩ := h
    rw [exec, ih hrest _ (Set.mem_insert_of_mem _ ha), Function.update_of_ne]
    rintro rfl
    exact hout ha

/-- **Execution solves the equations.** -/
theorem solves_exec (h : Ordered D cs) (f : ι → V) : Solves (exec f cs) cs := by
  induction cs generalizing D f with
  | nil => exact fun c hc => nomatch hc
  | cons c cs ih =>
    obtain ⟨⟨hreads, hout⟩, hrest⟩ := h
    intro c' hc'
    rcases List.mem_cons.mp hc' with rfl | hc'
    · rw [exec, exec_of_mem hrest _ (Set.mem_insert _ _), Function.update_self]
      refine c'.value_congr fun a ha => ?_
      -- what the instruction has read is not changed later
      rw [exec_of_mem hrest _ (Set.mem_insert_of_mem _ (hreads ha)), Function.update_of_ne]
      rintro rfl
      exact hout (hreads ha)
    · exact ih hrest _ c' hc'

/-- **The solution is unique** on the registers that the program defines. -/
theorem exec_eq_of_solves (h : Ordered D cs) {f g : ι → V} (hg : Solves g cs)
    (hD : ∀ a ∈ D, f a = g a) : ∀ a ∈ defined D cs, exec f cs a = g a := by
  induction cs generalizing D f with
  | nil =>
    rintro a (ha | ⟨c, hc, -⟩)
    · exact hD a ha
    · nomatch hc
  | cons c cs ih =>
    obtain ⟨⟨hreads, -⟩, hrest⟩ := h
    rw [defined_cons]
    refine ih hrest (fun c' hc' => hg c' (List.mem_cons_of_mem c hc')) fun a ha => ?_
    by_cases hout : a = c.out
    · subst hout
      rw [Function.update_self, hg c List.mem_cons_self]
      exact c.value_congr fun b hb => hD b (hreads hb)
    · rw [Function.update_of_ne hout]
      exact hD a (Set.mem_of_mem_insert_of_ne ha hout)

end StraightLine
