import Mathlib.Data.Nat.Basic
import Mathlib.Tactic.Choose

/-!
# Counted loops and their invariant rules

`forLoop n body s` is the loop `for (i = 0; i < n; ++i) s = body i s` in a monad, with the
loop state `s` passed explicitly. It peels its **last** iteration (`forLoop_succ`), so that
an invariant `Inv i` of the state before iteration `i` is carried by a plain induction on
the bound. `forLoop_ok` is the total-correctness rule for a loop whose body may throw, with
`forLoop_eq_ok` for the case that the states are known in closed form, `forLoop_of_ok` the rule for
partial correctness, `forLoop_rel` the same for two loops side by side, and `iterLoop_inv` the rule
for a loop whose body cannot throw. `whileLoop` is a loop with a condition and fuel, where
`whileLoop_ok` asks for an invariant and for a measure that the fuel bounds.
-/

namespace Loop

universe u v

variable {m : Type u → Type v} [Monad m] {σ : Type u}

/-- The loop `for (i = 0; i < n; ++i) s = body i s`. -/
def forLoop : ℕ → (ℕ → σ → m σ) → σ → m σ
  | 0, _, s => pure s
  | n + 1, body, s => forLoop n body s >>= body n

theorem forLoop_succ (n : ℕ) (body : ℕ → σ → m σ) (s : σ) :
    forLoop (n + 1) body s = forLoop n body s >>= body n := rfl

variable {n : ℕ}

theorem forLoop_congr {f g : ℕ → σ → m σ} (h : ∀ i < n, ∀ s, f i s = g i s) (s : σ) :
    forLoop n f s = forLoop n g s := by
  induction n with
  | zero => rfl
  | succ n ih =>
    rw [forLoop_succ, forLoop_succ, ih fun i hi => h i (by omega), funext (h n (by omega))]

variable {ε : Type v}

/-- **Invariant rule, total correctness.** If every iteration succeeds and takes `Inv i` to
`Inv (i + 1)`, then the whole loop succeeds and ends in `Inv n`. -/
theorem forLoop_ok {σ : Type v} {f : ℕ → σ → Except ε σ} {s : σ} (Inv : ℕ → σ → Prop) (h0 : Inv 0 s)
    (hstep : ∀ i < n, ∀ t, Inv i t → ∃ t', f i t = .ok t' ∧ Inv (i + 1) t') :
    ∃ t, forLoop n f s = .ok t ∧ Inv n t := by
  induction n with
  | zero => exact ⟨s, rfl, h0⟩
  | succ n ih =>
    obtain ⟨t, ht, hInv⟩ := ih fun i hi => hstep i (by omega)
    obtain ⟨t', ht', hInv'⟩ := hstep n (by omega) t hInv
    exact ⟨t', by rw [forLoop_succ, ht]; exact ht', hInv'⟩

theorem of_forLoop_succ {σ : Type v} {f : ℕ → σ → Except ε σ} {s t : σ}
    (h : forLoop (n + 1) f s = .ok t) : ∃ u, forLoop n f s = .ok u ∧ f n u = .ok t := by
  rw [forLoop_succ] at h
  cases hn : forLoop n f s with
  | error e => rw [hn] at h; contradiction
  | ok u => exact ⟨u, rfl, by rwa [hn] at h⟩

/-- **Invariant rule, partial correctness.** The loop ends in `Inv n` if it succeeds. -/
theorem forLoop_of_ok {σ : Type v} {f : ℕ → σ → Except ε σ} {s t : σ} (h : forLoop n f s = .ok t)
    (Inv : ℕ → σ → Prop) (h0 : Inv 0 s)
    (hstep : ∀ i < n, ∀ t t', Inv i t → f i t = .ok t' → Inv (i + 1) t') : Inv n t := by
  induction n generalizing t with
  | zero => exact Except.ok.inj h ▸ h0
  | succ n ih =>
    obtain ⟨u, hu, h⟩ := of_forLoop_succ h
    exact hstep n (by omega) u t (ih hu fun i hi => hstep i (by omega)) h

variable {τ : Type v}
variable {t t' : τ}

/-- **Relational rule.** Two loops of the same length that both succeed end in related states. -/
theorem forLoop_rel {σ : Type v} {f : ℕ → σ → Except ε σ} {g : ℕ → τ → Except ε τ} {s s' : σ}
    (R : σ → τ → Prop) (hs : forLoop n f s = .ok s') (ht : forLoop n g t = .ok t') (h0 : R s t)
    (hstep : ∀ i < n, ∀ s s' t t', R s t → f i s = .ok s' → g i t = .ok t' → R s' t') :
    R s' t' := by
  induction n generalizing s' t' with
  | zero => exact Except.ok.inj hs ▸ Except.ok.inj ht ▸ h0
  | succ n ih =>
    obtain ⟨u, hu, hs⟩ := of_forLoop_succ hs
    obtain ⟨v, hv, ht⟩ := of_forLoop_succ ht
    exact hstep n (by omega) u s' v t' (ih hu hv fun i hi => hstep i (by omega)) hs ht

/-- A loop whose states are known: `f i` is the state before iteration `i`. -/
theorem forLoop_eq_ok {σ : Type v} {body : ℕ → σ → Except ε σ} (f : ℕ → σ)
    (hstep : ∀ i < n, body i (f i) = .ok (f (i + 1))) : forLoop n body (f 0) = .ok (f n) := by
  obtain ⟨t, ht, rfl⟩ := forLoop_ok (fun i t => t = f i) rfl
    fun i hi t ht => ⟨f (i + 1), ht ▸ hstep i hi, rfl⟩
  exact ht

theorem forLoop_prod {σ : Type v} {f : ℕ → σ → Except ε σ} {g : ℕ → τ → Except ε τ}
    {body : ℕ → σ × τ → Except ε (σ × τ)}
    (hbody : ∀ i < n, ∀ s s' t t', f i s = .ok s' → g i t = .ok t' → body i (s, t) = .ok (s', t'))
    {s s' : σ} (hs : forLoop n f s = .ok s') (ht : forLoop n g t = .ok t') :
    forLoop n body (s, t) = .ok (s', t') := by
  induction n generalizing s' t' with
  | zero => rw [← Except.ok.inj hs, ← Except.ok.inj ht]; rfl
  | succ n ih =>
    obtain ⟨u, hu, hs⟩ := of_forLoop_succ hs
    obtain ⟨v, hv, ht⟩ := of_forLoop_succ ht
    rw [forLoop_succ, ih (fun i hi => hbody i (by omega)) hu hv]
    exact hbody n (by omega) u s' v t' hs ht

variable {α : Type u}
variable {l : List α}

variable {β : Type v}
variable {f : α → Except ε β}

theorem mapM_eq_ok {g : α → β} (h : ∀ a ∈ l, f a = .ok (g a)) : l.mapM f = .ok (l.map g) := by
  induction l with
  | nil => rfl
  | cons a l ih =>
    rw [List.mapM_cons, h a List.mem_cons_self, ih fun b hb => h b (List.mem_cons_of_mem a hb)]
    rfl

theorem mapM_congr {g : α → Except ε β} (h : ∀ a ∈ l, f a = g a) : l.mapM f = l.mapM g := by
  induction l with
  | nil => rfl
  | cons a l ih =>
    rw [List.mapM_cons, List.mapM_cons, h a List.mem_cons_self,
      ih fun b hb => h b (List.mem_cons_of_mem a hb)]

theorem exists_mapM_eq_ok [Nonempty β] {P : α → β → Prop} (h : ∀ a ∈ l, ∃ b, f a = .ok b ∧ P a b) :
    ∃ g : α → β, l.mapM f = .ok (l.map g) ∧ ∀ a ∈ l, P a (g a) := by
  choose! g hg using h
  exact ⟨g, mapM_eq_ok fun a ha => (hg a ha).1, fun a ha => (hg a ha).2⟩

theorem of_mapM_eq_ok {g : α → β} {bs : List β} (h : l.mapM f = .ok bs)
    (hf : ∀ a ∈ l, ∀ b, f a = .ok b → b = g a) : bs = l.map g := by
  induction l generalizing bs with
  | nil => exact (Except.ok.inj h).symm
  | cons a l ih =>
    rw [List.mapM_cons] at h
    cases ha : f a with
    | error e => rw [ha] at h; contradiction
    | ok b =>
      cases hl : l.mapM f with
      | error e => rw [ha, hl] at h; contradiction
      | ok cs =>
        rw [ha, hl] at h
        rw [← Except.ok.inj h, List.map_cons, hf a List.mem_cons_self b ha,
          ih hl fun c hc => hf c (List.mem_cons_of_mem a hc)]

theorem of_mapM_eq_error [Nonempty β] {e : ε} (h : l.mapM f = .error e) :
    ∃ a ∈ l, ∃ e', f a = .error e' := by
  by_contra hne
  have hok : ∀ a ∈ l, ∃ b, f a = .ok b ∧ True := fun a ha => by
    cases hfa : f a with
    | error e' => exact absurd ⟨a, ha, e', hfa⟩ hne
    | ok b => exact ⟨b, rfl, trivial⟩
  obtain ⟨g, hg, -⟩ := exists_mapM_eq_ok hok
  rw [hg] at h
  contradiction

theorem update_ite_lt {α : Type*} (f g : ℕ → α) (i : ℕ) :
    Function.update (fun k => if k < i then f k else g k) i (f i) =
      fun k => if k < i + 1 then f k else g k := by
  funext k
  rcases Nat.lt_trichotomy k i with hk | rfl | hk
  · rw [Function.update_of_ne (by omega), if_pos hk, if_pos (by omega)]
  · rw [Function.update_self, if_pos (by omega)]
  · rw [Function.update_of_ne (by omega), if_neg (by omega), if_neg (by omega)]

theorem forLoop_update {α : Type v} {body : ℕ → (ℕ → α) → Except ε (ℕ → α)} (f : ℕ → α → α)
    (h : ∀ k < n, ∀ a, body k a = .ok (Function.update a k (f k (a k)))) (a : ℕ → α) :
    forLoop n body a = .ok fun k => if k < n then f k (a k) else a k := by
  refine forLoop_eq_ok (fun j k => if k < j then f k (a k) else a k) fun j hj => ?_
  rw [h j hj, if_neg (lt_irrefl j), update_ite_lt fun k => f k (a k)]

/-- The loop `for (i = 0; i < n; ++i) s = body i s` with a body that cannot throw. -/
def iterLoop {σ : Type u} : ℕ → (ℕ → σ → σ) → σ → σ
  | 0, _, s => s
  | n + 1, body, s => body n (iterLoop n body s)

theorem iterLoop_succ (n : ℕ) (body : ℕ → σ → σ) (s : σ) :
    iterLoop (n + 1) body s = body n (iterLoop n body s) := rfl

/-- **Invariant rule** for a loop that cannot throw. -/
theorem iterLoop_inv {f : ℕ → σ → σ} {s : σ} (Inv : ℕ → σ → Prop) (h0 : Inv 0 s)
    (hstep : ∀ i < n, ∀ t, Inv i t → Inv (i + 1) (f i t)) : Inv n (iterLoop n f s) := by
  induction n with
  | zero => exact h0
  | succ n ih => exact hstep n (by omega) _ (ih fun i hi => hstep i (by omega))

theorem iterLoop_hom {τ : Type u} {f : ℕ → τ → τ} {g : ℕ → σ → σ} (φ : σ → τ)
    (h : ∀ i s, f i (φ s) = φ (g i s)) (s : σ) : iterLoop n f (φ s) = φ (iterLoop n g s) := by
  induction n with
  | zero => rfl
  | succ n ih => rw [iterLoop_succ, ih, h, iterLoop_succ]

/-- The loop `while (cond s) s = body s`. It throws `stuck` when the fuel is used up before the
condition fails. -/
def whileLoop {ε σ : Type} (stuck : ε) (cond : σ → Prop) [DecidablePred cond]
    (body : σ → Except ε σ) : ℕ → σ → Except ε σ
  | 0, s => if cond s then throw stuck else pure s
  | fuel + 1, s => if cond s then body s >>= whileLoop stuck cond body fuel else pure s

/-- **Invariant rule, total correctness.** The fuel is enough for a measure that decreases. -/
theorem whileLoop_ok {ε σ : Type} (stuck : ε) (cond : σ → Prop) [DecidablePred cond]
    (body : σ → Except ε σ) {fuel : ℕ} {s : σ} (Inv : σ → Prop) (μ : σ → ℕ) (hμ : μ s ≤ fuel)
    (h0 : Inv s)
    (hstep : ∀ t, Inv t → cond t → ∃ t', body t = .ok t' ∧ Inv t' ∧ μ t' < μ t) :
    ∃ t, whileLoop stuck cond body fuel s = .ok t ∧ Inv t ∧ ¬cond t := by
  induction fuel generalizing s with
  | zero =>
    by_cases hc : cond s
    · obtain ⟨t', -, -, hlt⟩ := hstep s h0 hc
      omega
    · exact ⟨s, by rw [whileLoop, if_neg hc]; rfl, h0, hc⟩
  | succ fuel ih =>
    by_cases hc : cond s
    · obtain ⟨t', ht', hInv, hlt⟩ := hstep s h0 hc
      obtain ⟨t, ht, hres⟩ := ih (by omega) hInv
      exact ⟨t, by rw [whileLoop, if_pos hc, ht']; exact ht, hres⟩
    · exact ⟨s, by rw [whileLoop, if_neg hc]; rfl, h0, hc⟩

end Loop
