import Mathlib.Data.List.Basic

/-!
# Runs of a partial deterministic system

A system is a partial step function `step : σ → α → Option σ` on states `σ` and operations `α`;
nondeterminism is in the choice of the operations. `exec` runs a list of operations, `Avoids` says
that no step of a run is one of those that a test marks, and `exec_invariant` and `exec_relation`
are the two induction rules: for what every step keeps, and for what every step can only move in one
direction. `Reaches` says that there is a run from one state to another; such runs are put together.
-/

namespace ToFTDS.Run

section
variable {σ α : Type} (step : σ → α → Option σ)

/-- Runs the operations in order, if all of them are possible. -/
def exec : List α → σ → Option σ
  | [], s => some s
  | a :: as, s => (step s a).bind (exec as)

/-- No step of the run is marked by `bad`. -/
def Avoids (bad : σ → α → Bool) : List α → σ → Bool
  | [], _ => true
  | a :: as, s =>
    !bad s a && match step s a with
      | some s' => Avoids bad as s'
      | none => true

variable {step}

/-- A run of one operation and more is a step and a run. -/
theorem exec_cons_eq {a : α} {as : List α} {s s' : σ} :
    exec step (a :: as) s = some s' ↔ ∃ t, step s a = some t ∧ exec step as t = some s' := by
  simp [exec, Option.bind_eq_some_iff]

/-- Running two lists of operations is running the second from where the first ends. -/
theorem exec_append_eq (as bs : List α) (s : σ) :
    exec step (as ++ bs) s = (exec step as s).bind (exec step bs) := by
  induction as generalizing s with
  | nil => rfl
  | cons a as ih =>
    simp only [List.cons_append, exec, Option.bind_assoc]
    exact congrArg _ (funext ih)

/-- A run of two lists of operations is a run of the second after a run of the first. -/
theorem exec_append {as bs : List α} {s s' : σ} :
    exec step (as ++ bs) s = some s' ↔
      ∃ t, exec step as s = some t ∧ exec step bs t = some s' := by
  rw [exec_append_eq, Option.bind_eq_some_iff]

/-- A run that avoids the marked steps begins with a step that is not marked, and goes on like this.
-/
theorem avoids_cons {bad : σ → α → Bool} {a : α} {as : List α} {s t : σ}
    (h : Avoids step bad (a :: as) s = true) (hs : step s a = some t) :
    bad s a = false ∧ Avoids step bad as t = true := by
  simp only [Avoids, hs, Bool.and_eq_true, Bool.not_eq_true'] at h
  exact h

/-- A run avoids what each of its halves avoids. -/
theorem avoids_append {bad : σ → α → Bool} {as bs : List α} {s t : σ}
    (hs : exec step as s = some t) (h : Avoids step bad (as ++ bs) s = true) :
    Avoids step bad as s = true ∧ Avoids step bad bs t = true := by
  induction as generalizing s with
  | nil => cases hs; exact ⟨rfl, h⟩
  | cons a as ih =>
    obtain ⟨u, hu, hs⟩ := exec_cons_eq.1 hs
    obtain ⟨hbad, h⟩ := avoids_cons h hu
    obtain ⟨h1, h2⟩ := ih hs h
    exact ⟨by simp [Avoids, hbad, hu, h1], h2⟩

/-- Two runs that avoid the marked steps make one. -/
theorem avoids_append_intro {bad : σ → α → Bool} {as bs : List α} {s t : σ}
    (hs : exec step as s = some t) (has : Avoids step bad as s = true)
    (hbs : Avoids step bad bs t = true) : Avoids step bad (as ++ bs) s = true := by
  induction as generalizing s with
  | nil => cases hs; exact hbs
  | cons a as ih =>
    obtain ⟨u, hu, hs⟩ := exec_cons_eq.1 hs
    obtain ⟨hbad, has⟩ := avoids_cons has hu
    simp only [List.cons_append, Avoids, hu, hbad, Bool.not_false, Bool.true_and]
    exact ih hs has

/-- A run avoids what no step is marked by. -/
theorem avoids_of_forall {bad : σ → α → Bool} (h : ∀ s a, bad s a = false) (as : List α) (s : σ) :
    Avoids step bad as s = true := by
  induction as generalizing s with
  | nil => rfl
  | cons a as ih =>
    simp only [Avoids, h, Bool.not_false, Bool.true_and]
    cases step s a with
    | none => rfl
    | some t => exact ih t

/-- A run that avoids the steps of one mark avoids those of a mark that marks fewer. -/
theorem avoids_mono {bad bad' : σ → α → Bool} (hle : ∀ s a, bad s a = true → bad' s a = true)
    {as : List α} {s : σ} (h : Avoids step bad' as s = true) : Avoids step bad as s = true := by
  induction as generalizing s with
  | nil => rfl
  | cons a as ih =>
    simp only [Avoids, Bool.and_eq_true, Bool.not_eq_true'] at h ⊢
    refine ⟨Bool.eq_false_iff.2 fun hbad => by simp [hle s a hbad] at h, ?_⟩
    cases hs : step s a with
    | none => rfl
    | some t =>
      rw [hs] at h
      exact ih h.2

/-- The invariant rule: what holds at the start and is kept by every step that is not marked holds
at the end of every run that avoids the marked steps. -/
theorem exec_invariant {bad : σ → α → Bool} {I : σ → Prop} {as : List α} {s s' : σ}
    (hstep : ∀ s a s', I s → bad s a = false → step s a = some s' → I s')
    (hs : I s) (hrun : exec step as s = some s') (h : Avoids step bad as s = true) : I s' := by
  induction as generalizing s with
  | nil => cases hrun; exact hs
  | cons a as ih =>
    obtain ⟨t, ht, hrun⟩ := exec_cons_eq.1 hrun
    obtain ⟨hbad, h⟩ := avoids_cons h ht
    exact ih (hstep s a t hs hbad ht) hrun h

/-- The invariant rule for all runs. -/
theorem exec_invariant' {I : σ → Prop} {as : List α} {s s' : σ}
    (hstep : ∀ s a s', I s → step s a = some s' → I s')
    (hs : I s) (hrun : exec step as s = some s') : I s' := by
  induction as generalizing s with
  | nil => cases hrun; exact hs
  | cons a as ih =>
    obtain ⟨t, ht, hrun⟩ := exec_cons_eq.1 hrun
    exact ih (hstep s a t hs ht) hrun

/-- The invariant rule for runs of only some of the operations. -/
theorem exec_invariant_ops {I : σ → Prop} {as : List α} {s s' : σ} {P : α → Prop}
    (hstep : ∀ s a s', P a → I s → step s a = some s' → I s') (hP : ∀ a ∈ as, P a)
    (hs : I s) (hrun : exec step as s = some s') : I s' := by
  induction as generalizing s with
  | nil => cases hrun; exact hs
  | cons a as ih =>
    obtain ⟨t, ht, hrun⟩ := exec_cons_eq.1 hrun
    refine ih (fun b hb => hP b (List.mem_cons_of_mem _ hb)) ?_ hrun
    exact hstep s a t (hP a List.mem_cons_self) hs ht

/-- The rule for a reflexive and transitive relation: if every step goes along it, so does every
run. -/
theorem exec_relation {R : σ → σ → Prop} {as : List α} {s s' : σ} (hrefl : ∀ s, R s s)
    (htrans : ∀ s t u, R s t → R t u → R s u) (hstep : ∀ s a s', step s a = some s' → R s s')
    (hrun : exec step as s = some s') : R s s' :=
  exec_invariant' (I := R s) (fun t a u h ht => htrans s t u h (hstep t a u ht)) (hrefl s) hrun

/-- What holds at the end of a run and not at its start begins to hold in one of its steps. -/
theorem exec_becomes {P : σ → Prop} {as : List α} {s s' : σ} (hs : ¬ P s) (hs' : P s')
    (hrun : exec step as s = some s') :
    ∃ before a after t u, as = before ++ a :: after ∧ exec step before s = some t ∧
      step t a = some u ∧ exec step after u = some s' ∧ ¬ P t ∧ P u := by
  induction as generalizing s with
  | nil =>
    cases hrun
    exact absurd hs' hs
  | cons a as ih =>
    obtain ⟨t, ht, hrun⟩ := exec_cons_eq.1 hrun
    by_cases hPt : P t
    · exact ⟨[], a, as, s, t, rfl, rfl, ht, hrun, hs, hPt⟩
    · obtain ⟨before, b, after, t', u, rfl, h1, h2, h3, h4, h5⟩ := ih hPt hrun
      exact ⟨a :: before, b, after, t', u, rfl, exec_cons_eq.2 ⟨t, ht, h1⟩, h2, h3, h4, h5⟩

variable (step) in
/-- Some run from `s` to `s'` avoids the marked steps. -/
def Reaches (bad : σ → α → Bool) (s s' : σ) : Prop :=
  ∃ as, exec step as s = some s' ∧ Avoids step bad as s = true

section
variable {bad : σ → α → Bool} {s t s' : σ}

/-- Every state reaches itself. -/
theorem Reaches.refl : Reaches step bad s s := ⟨[], rfl, rfl⟩

/-- A step that is not marked reaches its result. -/
theorem Reaches.single {a : α} (h : step s a = some s') (hbad : bad s a = false) :
    Reaches step bad s s' := by
  refine ⟨[a], exec_cons_eq.2 ⟨s', h, rfl⟩, ?_⟩
  simp only [Avoids, h, hbad, Bool.not_false, Bool.true_and]

/-- What is reached from a state that is reached is reached. -/
theorem Reaches.trans (h : Reaches step bad s t) (h' : Reaches step bad t s') :
    Reaches step bad s s' := by
  obtain ⟨as, hs, has⟩ := h
  obtain ⟨bs, ht, hbs⟩ := h'
  exact ⟨as ++ bs, exec_append.2 ⟨t, hs, ht⟩, avoids_append_intro hs has hbs⟩

end

/-- A run whose result passes a decidable test exists as soon as the test computes to `true`. -/
theorem exists_of_any {as : List α} {s : σ} {p : σ → Bool}
    (h : (exec step as s).any p = true) : ∃ s', exec step as s = some s' ∧ p s' = true := by
  cases hs : exec step as s with
  | none => simp [hs] at h
  | some s' => exact ⟨s', rfl, by simpa [hs] using h⟩

end

end ToFTDS.Run
