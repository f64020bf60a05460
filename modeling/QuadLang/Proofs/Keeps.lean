/-
Steps that keep a relation.

Compiling and running are both steps that change a state and may stop.  `Keeps R`
says that a step leads from every state to one that `R` relates to it, whether
it stops or not.  For a preorder `R` this is closed under everything that steps
are built from, so what a long step keeps follows from its parts.

The lemmas `run_*` say what a step does from a given state.
-/
import Mathlib

namespace QuadLang

variable {ε σ α β : Type} {next : List β → Except ε β} {n : Nat}

/-- Results one after the other, each from those before. -/
def collect (next : List β → Except ε β) : Nat → Except ε (List β)
  | 0 => .ok []
  | n + 1 => do
    let done ← collect next n
    return done ++ [← next done]

theorem collect_eq_ok {xs : List β} (h : collect next n = .ok xs) :
    xs.length = n ∧ ∀ i x, xs[i]? = some x → next (xs.take i) = .ok x := by
  induction n generalizing xs with
  | zero =>
    cases h
    exact ⟨rfl, by simp⟩
  | succ n ih =>
    rw [collect] at h
    rcases hd : collect next n with e | done
    · rw [hd] at h; cases h
    rw [hd] at h
    obtain ⟨hlength, hnext⟩ := ih hd
    rcases hx : next done with e | x
    · simp only [bind, Except.bind, hx] at h; cases h
    simp only [bind, Except.bind, hx] at h
    obtain rfl : done ++ [x] = xs := Except.ok.inj h
    refine ⟨by simp [hlength], fun i y hy => ?_⟩
    by_cases hi : i < done.length
    · rw [List.getElem?_append_left hi] at hy
      rw [List.take_append_of_le_length (by omega)]
      exact hnext i y hy
    · obtain rfl : i = done.length := by
        have := (List.getElem?_eq_some_iff.mp hy).1
        simp at this
        omega
      rw [List.getElem?_concat_length] at hy
      rw [List.take_left, hx, Option.some.inj hy]

theorem collect_ok_of_next (h : ∀ done, done.length < n → ∃ x, next done = .ok x) :
    ∃ xs, collect next n = .ok xs := by
  induction n with
  | zero => exact ⟨[], rfl⟩
  | succ n ih =>
    obtain ⟨done, hd⟩ := ih fun done hlt => h done (by omega)
    obtain ⟨x, hx⟩ := h done (by rw [(collect_eq_ok hd).1]; omega)
    refine ⟨done ++ [x], ?_⟩
    rw [collect, hd]
    simp only [bind, Except.bind, hx]
    rfl

/-- Steps that change a state and may stop. -/
abbrev Steps (ε σ α : Type) := ExceptT ε (StateM σ) α

namespace Steps

variable {x : Steps ε σ α} {f : α → Steps ε σ β} {s s' : σ}

@[simp] theorem run_pure (a : α) (s : σ) :
    (pure a : Steps ε σ α).run s = (.ok a, s) := rfl

@[simp] theorem run_throw (e : ε) (s : σ) :
    (throw e : Steps ε σ α).run s = (.error e, s) := rfl

@[simp] theorem run_get (s : σ) : (get : Steps ε σ σ).run s = (.ok s, s) := rfl

@[simp] theorem run_set (s s' : σ) : (set s' : Steps ε σ PUnit).run s = (.ok (), s') := rfl

@[simp] theorem run_modify (f : σ → σ) (s : σ) :
    (modify f : Steps ε σ PUnit).run s = (.ok (), f s) := rfl

theorem run_bind_ok {a : α} (h : x.run s = (.ok a, s')) : (x >>= f).run s = (f a).run s' := by
  have h' : (x >>= f).run s = ExceptT.bindCont f (x.run s).1 (x.run s).2 := rfl
  rw [h', h]
  rfl

theorem run_bind_error {e : ε} (h : x.run s = (.error e, s')) :
    (x >>= f).run s = (.error e, s') := by
  have h' : (x >>= f).run s = ExceptT.bindCont f (x.run s).1 (x.run s).2 := rfl
  rw [h', h]
  rfl

/-- A sequence of steps that goes through went through each of them. -/
theorem bind_eq_ok {b : β} (h : (x >>= f).run s = (.ok b, s')) :
    ∃ a s₁, x.run s = (.ok a, s₁) ∧ (f a).run s₁ = (.ok b, s') := by
  rcases hx : x.run s with ⟨r, s₁⟩
  cases r with
  | ok a => exact ⟨a, s₁, rfl, (run_bind_ok hx).symm.trans h⟩
  | error e =>
    rw [run_bind_error hx] at h
    exact absurd (congrArg Prod.fst h) (by simp)

/-- What holds of a loop that goes through, when it holds of no round and is handed on
by every round. -/
theorem forM_eq_ok {act : α → Steps ε σ PUnit} {R : List α → σ → σ → Prop}
    (hnil : ∀ s, R [] s s)
    (hcons : ∀ a l s s₁ s', (act a).run s = (.ok (), s₁) → R l s₁ s' → R (a :: l) s s') :
    ∀ (l : List α) {s s' : σ}, (l.forM act).run s = (.ok (), s') → R l s s'
  | [], s, s', h => by
    cases h
    exact hnil _
  | a :: l, s, s', h => by
    obtain ⟨_, s₁, h₁, h₂⟩ := bind_eq_ok h
    exact hcons a l s s₁ s' h₁ (forM_eq_ok hnil hcons l h₂)

/-- From `s` the step goes through when there is a result, to a state that `P` relates to
it, and stops when there is none. -/
def Yields (x : Steps ε σ PUnit) (s : σ) (result : Except ε β) (P : β → σ → Prop) : Prop :=
  match result with
  | .ok b => ∃ s', x.run s = (.ok (), s') ∧ P b s'
  | .error e => ∃ s', x.run s = (.error e, s')

/-- A loop that collects results, when each of its rounds yields the next one. -/
theorem yields_forM (act : Nat → Steps ε σ PUnit) {next : List β → Except ε β}
    {Inv : List β → σ → Prop} {size : Nat} (hnil : Inv [] s)
    (hnext : ∀ done s, done.length < size → Inv done s →
      Yields (act done.length) s (next done) fun x => Inv (done ++ [x])) {n : Nat} (hn : n ≤ size) :
    Yields ((List.range n).forM act) s (collect next n) Inv := by
  induction n with
  | zero => exact ⟨s, rfl, hnil⟩
  | succ n ih =>
    have hrange : (List.range (n + 1)).forM act = (List.range n).forM act >>= fun _ => act n := by
      rw [List.range_succ]
      simp
    have hbefore := ih (Nat.le_of_succ_le hn)
    rw [hrange, collect]
    rcases hd : collect next n with e | done
    · rw [hd] at hbefore
      obtain ⟨s', hrun⟩ := hbefore
      exact ⟨s', run_bind_error hrun⟩
    rw [hd] at hbefore
    obtain ⟨s₁, hrun, hinv⟩ := hbefore
    have hlength := (collect_eq_ok hd).1
    have hround := hnext done s₁ (by omega) hinv
    rw [hlength] at hround
    show Yields _ _ (do return done ++ [← next done]) _
    rcases hx : next done with e | x <;> rw [hx] at hround
    · obtain ⟨s', hstop⟩ := hround
      exact ⟨s', (run_bind_ok hrun).trans hstop⟩
    · obtain ⟨s', hgo, hinv'⟩ := hround
      exact ⟨s', (run_bind_ok hrun).trans hgo, hinv'⟩

end Steps

/-- The step `x` leads from every state to one that `R` relates to it. -/
def Keeps (R : σ → σ → Prop) (x : Steps ε σ α) : Prop := ∀ s, R s (x.run s).2

section

variable {R : σ → σ → Prop}

theorem keeps_modify {f : σ → σ} (h : ∀ s, R s (f s)) :
    Keeps R (modify f : Steps ε σ PUnit) := h

/-- What follows a look at the state may rely on the state. -/
theorem keeps_get_bind {f : σ → Steps ε σ β} (h : ∀ s, R s ((f s).run s).2) :
    Keeps R (get >>= f) := h

end

section

variable {R : σ → σ → Prop} [IsPreorder σ R]

theorem keeps_pure (a : α) : Keeps R (pure a : Steps ε σ α) := fun s => refl s

theorem keeps_throw (e : ε) : Keeps R (throw e : Steps ε σ α) := fun s => refl s

theorem keeps_get : Keeps R (get : Steps ε σ σ) := fun s => refl s

theorem keeps_bind {x : Steps ε σ α} {f : α → Steps ε σ β} (hx : Keeps R x)
    (hf : ∀ a, Keeps R (f a)) : Keeps R (x >>= f) := by
  intro s
  have hs := hx s
  rcases h : x.run s with ⟨r, s₁⟩
  rw [h] at hs
  cases r with
  | ok a =>
    rw [Steps.run_bind_ok h]
    exact IsTrans.trans _ _ _ hs (hf a s₁)
  | error e =>
    rw [Steps.run_bind_error h]
    exact hs

theorem keeps_forM {act : α → Steps ε σ PUnit} (h : ∀ a, Keeps R (act a)) :
    ∀ l : List α, Keeps R (l.forM act)
  | [] => keeps_pure _
  | a :: l => keeps_bind (h a) fun _ => keeps_forM h l

theorem keeps_mapM {act : α → Steps ε σ β} (h : ∀ a, Keeps R (act a)) :
    ∀ l : List α, Keeps R (l.mapM act)
  | [] => keeps_pure _
  | a :: l => by
    rw [List.mapM_cons]
    exact keeps_bind (h a) fun _ => keeps_bind (keeps_mapM h l) fun _ => keeps_pure _

end

end QuadLang
