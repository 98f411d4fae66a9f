import Mathlib.Data.Finset.Card
import Mathlib.Data.List.Induction
import Mathlib.Data.Nat.Find
import Mathlib.Logic.Function.Iterate

/-!
# Labelled transition systems with initial states

A stateful component is a transition system: a set of initial states and a labelled step
relation.  `Lts.Run` follows a list of labels, `Lts.Reachable` forgets it.  `Lts.guard` keeps only
the steps that meet a condition, which is how "every run whose steps all satisfy `ok`" is said.

* `Run.invariant`, `Reachable.induct` : what every step preserves.
* `Run.forall_iff` : **a property holds all along a run exactly when** its steps meet a condition.
* `Run.until` : what every step preserves until something happens.
* `Run.exists_rank_zero` : a rank that falls is used up.
* `exists_iterate_lt_card` : what a function on finitely many states meets at all, it meets soon.
* `run_det_iff` : the runs of a deterministic system are computed by `List.foldlM`.
* `forall_step_iff` : `Run.forall_iff` for a property of the steps of a function.
-/

namespace Shiro

/-- A labelled transition system. -/
structure Lts (S : Type*) (L : Type*) where
  /-- The states a run may start in. -/
  init : S → Prop
  /-- `step s l s'` : the system can go from `s` to `s'` by the action `l`. -/
  step : S → L → S → Prop

namespace Lts

variable {S L : Type*} (A : Lts S L)

/-- The actions `ls` lead from `s` to `s'`. -/
inductive Run (s : S) : List L → S → Prop
  | nil : Run s [] s
  | snoc {ls : List L} {t t' : S} {l : L} : Run s ls t → A.step t l t' → Run s (ls ++ [l]) t'

/-- Some run from an initial state ends in `s`. -/
def Reachable (s : S) : Prop := ∃ s₀ ls, A.init s₀ ∧ A.Run s₀ ls s

/-- The steps of `A` that meet `ok`. -/
def guard (ok : S → L → Prop) : Lts S L where
  init := A.init
  step s l s' := ok s l ∧ A.step s l s'

variable {A}

theorem Run.eq_of_nil {s s' : S} (h : A.Run s [] s') : s = s' := by
  generalize hk : ([] : List L) = k at h
  cases h with
  | nil => rfl
  | snoc => simp at hk

theorem Run.of_single {s s' : S} {l : L} (h : A.Run s [l] s') : A.step s l s' := by
  generalize hk : [l] = k at h
  cases h with
  | nil => cases hk
  | @snoc ls t _ l' hr hst =>
    have hls : ls = [] := List.eq_nil_of_length_eq_zero (by simpa using congrArg List.length hk)
    subst hls
    cases hk
    rw [hr.eq_of_nil]
    exact hst

theorem Run.append {s t u : S} {ls ls' : List L} (h : A.Run s ls t) (h' : A.Run t ls' u) :
    A.Run s (ls ++ ls') u := by
  induction h' with
  | nil => rwa [List.append_nil]
  | snoc _ hst ih => rw [← List.append_assoc]; exact .snoc ih hst

/-- What every step preserves, every run preserves. -/
theorem Run.invariant {I : S → Prop} {s s' : S} {ls : List L} (h : A.Run s ls s') (h₀ : I s)
    (hstep : ∀ s l s', I s → A.step s l s' → I s') : I s' := by
  induction h with
  | nil => exact h₀
  | snoc _ hst ih => exact hstep _ _ _ ih hst

/-- A run of some length splits behind any of its actions. -/
theorem Run.split {s u : S} {ls ls' : List L} (h : A.Run s (ls ++ ls') u) :
    ∃ t, A.Run s ls t ∧ A.Run t ls' u := by
  induction ls' using List.reverseRecOn generalizing u with
  | nil => exact ⟨u, by simpa using h, .nil⟩
  | append_singleton ls' l ih =>
    rw [← List.append_assoc] at h
    generalize hk : ls ++ ls' ++ [l] = k at h
    cases h with
    | nil => simp at hk
    | snoc h hst =>
      obtain ⟨rfl, hl⟩ := List.append_inj' hk rfl
      cases hl
      obtain ⟨t, h1, h2⟩ := ih h
      exact ⟨t, h1, .snoc h2 hst⟩

/-- The first action of a run. -/
theorem Run.head {s u : S} {l : L} {ls : List L} (h : A.Run s (l :: ls) u) :
    ∃ t, A.step s l t ∧ A.Run t ls u := by
  obtain ⟨t, h1, h2⟩ := (show A.Run s ([l] ++ ls) u from h).split
  exact ⟨t, h1.of_single, h2⟩

/-- What every step that meets `ok` preserves holds at the end of a run of such steps. -/
theorem Run.invariant_of_ok {I : S → Prop} {ok : S → L → Prop} {s s' : S} {ls : List L}
    (h : A.Run s ls s') (h₀ : I s) (hkeep : ∀ t l t', I t → ok t l → A.step t l t' → I t')
    (hok : ∀ pre l t t', pre ++ [l] <+: ls → A.Run s pre t → A.step t l t' → ok t l) : I s' := by
  induction h with
  | nil => exact h₀
  | @snoc pre t t' l hpre hst ih =>
    have hI := ih fun pre' l' u u' hle => hok pre' l' u u' (hle.trans (List.prefix_append _ _))
    exact hkeep t l t' hI (hok pre l t t' (List.prefix_refl _) hpre hst) hst

/-- **A property holds all along a run exactly when every step meets a condition**: the condition
keeps an invariant that implies the property, and a step that breaks it breaks the property. -/
theorem Run.forall_iff {I P : S → Prop} {ok : S → L → Prop} {s : S} (ls : List L) (h₀ : I s)
    (hP : ∀ t, I t → P t) (hkeep : ∀ t l t', I t → ok t l → A.step t l t' → I t')
    (hbreak : ∀ t l t', I t → ¬ ok t l → A.step t l t' → ¬ P t') :
    (∀ pre t, pre <+: ls → A.Run s pre t → P t) ↔
      ∀ pre l t t', pre ++ [l] <+: ls → A.Run s pre t → A.step t l t' → ok t l := by
  constructor
  · intro hall
    -- the property along the run gives the invariant, step by step
    have hI : ∀ pre t, pre <+: ls → A.Run s pre t → I t := by
      intro pre t hle hrun
      induction hrun with
      | nil => exact h₀
      | @snoc pre u u' l hpre hst ih =>
        have hu := ih ((List.prefix_append _ _).trans hle)
        by_cases hok : ok u l
        · exact hkeep u l u' hu hok hst
        · exact absurd (hall _ u' hle (.snoc hpre hst)) (hbreak u l u' hu hok hst)
    intro pre l t t' hle hrun hst
    by_contra hok
    have ht := hI pre t ((List.prefix_append _ _).trans hle) hrun
    exact hbreak t l t' ht hok hst (hall _ t' hle (.snoc hrun hst))
  · intro hok pre t hle hrun
    exact hP t (hrun.invariant_of_ok h₀ hkeep fun pre' l u u' h => hok pre' l u u' (h.trans hle))

/-- **A rank that falls is used up**: if the actions in `p` lower it and the others do not raise
it, then a run with enough actions in `p` meets a state of rank zero in time. -/
theorem Run.exists_rank_zero {I : S → Prop} {C : S → L → Prop} {r : S → ℕ} {p : L → Bool}
    {s u : S} {ls : List L} (h : A.Run s ls u) (h₀ : I s) (hlen : r s ≤ ls.countP p)
    (hfall : ∀ l ∈ ls, ∀ t t', I t → r t ≠ 0 → A.step t l t' →
      C t l ∧ I t' ∧ r t' ≤ r t ∧ (p l → r t' < r t)) :
    ∃ pre t, pre <+: ls ∧ (A.guard C).Run s pre t ∧ pre.countP p ≤ r s ∧ r t = 0 := by
  induction ls generalizing s with
  | nil => exact ⟨[], s, List.prefix_refl _, .nil, Nat.zero_le _, Nat.le_zero.1 hlen⟩
  | cons l ls ih =>
    by_cases hr : r s = 0
    · exact ⟨[], s, List.nil_prefix, .nil, Nat.zero_le _, hr⟩
    obtain ⟨t, hst, hrun⟩ := h.head
    obtain ⟨hC, hI, hle, hlt⟩ := hfall l List.mem_cons_self s t h₀ hr hst
    have hcount : r t + (if p l then 1 else 0) ≤ r s := by
      split
      · rename_i hp
        exact hlt hp
      · exact hle
    rw [List.countP_cons] at hlen
    obtain ⟨pre, t', hpre, hrun', hn, hz⟩ := ih hrun hI (by omega) fun l' hl' =>
      hfall l' (List.mem_cons_of_mem _ hl')
    have hfirst : (A.guard C).Run s [l] t := .snoc .nil ⟨hC, hst⟩
    refine ⟨l :: pre, t', (List.prefix_cons_inj l).2 hpre, hfirst.append hrun', ?_, hz⟩
    rw [List.countP_cons]
    omega

/-- **What holds until something happens**: every step keeps `I` or brings `Q` about. -/
theorem Run.until {I Q : S → Prop} {s u : S} {ls : List L} (h : A.Run s ls u) (h₀ : I s)
    (hstep : ∀ t l t', I t → A.step t l t' → I t' ∨ Q t') :
    I u ∨ ∃ pre t, pre <+: ls ∧ A.Run s pre t ∧ Q t := by
  induction h with
  | nil => exact .inl h₀
  | @snoc ls t t' l hrun hst ih =>
    rcases ih with hI | ⟨pre, v, hle, hpre, hQ⟩
    · rcases hstep t l t' hI hst with hI' | hQ
      · exact .inl hI'
      · exact .inr ⟨ls ++ [l], t', List.prefix_refl _, .snoc hrun hst, hQ⟩
    · exact .inr ⟨pre, v, hle.trans (List.prefix_append _ _), hpre, hQ⟩

theorem Reachable.of_init {s : S} (h : A.init s) : A.Reachable s := ⟨s, [], h, .nil⟩

theorem Reachable.step {s s' : S} {l : L} (h : A.Reachable s) (hst : A.step s l s') :
    A.Reachable s' := by
  obtain ⟨s₀, ls, h₀, hr⟩ := h
  exact ⟨s₀, ls ++ [l], h₀, .snoc hr hst⟩

/-- An inductive invariant holds in every reachable state. -/
theorem Reachable.induct {I : S → Prop} {s : S} (h : A.Reachable s) (hinit : ∀ s, A.init s → I s)
    (hstep : ∀ s l s', I s → A.step s l s' → I s') : I s := by
  obtain ⟨s₀, ls, h₀, hr⟩ := h
  exact hr.invariant (hinit _ h₀) hstep

/-- A step that meets the condition, taken in the guarded system. -/
theorem Reachable.guarded {ok : S → L → Prop} {s s' : S} (h : (A.guard ok).Reachable s) (l : L)
    (hok : ok s l) (hst : A.step s l s') : (A.guard ok).Reachable s' :=
  h.step (l := l) ⟨hok, hst⟩

theorem Run.of_guard {ok : S → L → Prop} {s s' : S} {ls : List L}
    (h : (A.guard ok).Run s ls s') : A.Run s ls s' := by
  induction h with
  | nil => exact .nil
  | snoc _ hst ih => exact .snoc ih hst.2

theorem Reachable.of_guard {ok : S → L → Prop} {s : S} (h : (A.guard ok).Reachable s) :
    A.Reachable s := by
  obtain ⟨s₀, ls, h₀, hr⟩ := h
  exact ⟨s₀, ls, h₀, hr.of_guard⟩

/-! ### Deterministic systems -/

/-- The system of a partial step function. -/
def det (init : S → Prop) (f : S → L → Option S) : Lts S L where
  init := init
  step s l s' := f s l = some s'

variable {init : S → Prop} {f : S → L → Option S}

@[simp] theorem det_step {s s' : S} {l : L} : (det init f).step s l s' ↔ f s l = some s' := Iff.rfl

/-- **The runs of a deterministic system are computed** by iterating its step function. -/
theorem run_det_iff {s s' : S} {ls : List L} :
    (det init f).Run s ls s' ↔ ls.foldlM f s = some s' := by
  constructor
  · intro h
    induction h with
    | nil => rfl
    | snoc _ hst ih => simpa [List.foldlM_append, ih] using det_step.1 hst
  · induction ls using List.reverseRecOn generalizing s' with
    | nil =>
      intro h
      cases h
      exact .nil
    | append_singleton ls l ih =>
      intro h
      rw [List.foldlM_append] at h
      obtain ⟨t, h1, h2⟩ := Option.bind_eq_some_iff.1 h
      exact .snoc (ih h1) (det_step.2 (by simpa using h2))

/-- A computed run ends in a reachable state. -/
theorem exists_reachable_det (hA : A = det A.init f) {s₀ : S} (h₀ : A.init s₀) (ls : List L)
    (p : S → Bool) (h : (ls.foldlM f s₀).any p = true) : ∃ s, A.Reachable s ∧ p s = true := by
  obtain ⟨s, hs, hp⟩ := (Option.any_eq_true _ _).1 h
  refine ⟨s, ⟨s₀, ls, h₀, ?_⟩, hp⟩
  rw [hA]
  exact run_det_iff.2 hs

/-- A guarded deterministic system is deterministic. -/
theorem guard_det (init : S → Prop) (f : S → L → Option S) (ok : S → L → Prop)
    [∀ s l, Decidable (ok s l)] :
    (det init f).guard ok = det init fun s l => if ok s l then f s l else none := by
  rw [guard, det, det]
  congr 1
  funext s l s'
  exact propext Option.ite_none_right_eq_some.symm

/-- **A property holds of all steps of a function exactly when a condition does**: the two agree
where an invariant holds, and the condition keeps the invariant. -/
theorem forall_step_iff {f : S → L → S} {I : S → List L → Prop} {P : S → L → Prop}
    {ok : List L → L → Prop} {s : S} (ls : List L) (h₀ : I s [])
    (hkeep : ∀ t pre l, I t pre → ok pre l → I (f t l) (pre ++ [l]))
    (hP : ∀ t pre l, I t pre → (P t l ↔ ok pre l)) :
    (∀ pre l, pre ++ [l] <+: ls → P (pre.foldl f s) l) ↔
      ∀ pre l, pre ++ [l] <+: ls → ok pre l := by
  have hI : (∀ pre l, pre ++ [l] <+: ls → I (pre.foldl f s) pre → ok pre l) →
      ∀ pre, pre <+: ls → I (pre.foldl f s) pre := by
    intro hok pre
    induction pre using List.reverseRecOn with
    | nil => exact fun _ => h₀
    | append_singleton pre l ih =>
      intro hle
      have hpre := ih ((List.prefix_append _ _).trans hle)
      rw [List.foldl_append]
      exact hkeep _ pre l hpre (hok pre l hle hpre)
  constructor
  · intro hall
    have hok : ∀ pre l, pre ++ [l] <+: ls → I (pre.foldl f s) pre → ok pre l :=
      fun pre l hle h => (hP _ pre l h).1 (hall pre l hle)
    exact fun pre l hle => hok pre l hle (hI hok pre ((List.prefix_append _ _).trans hle))
  · intro hok pre l hle
    have h := hI (fun pre l hle _ => hok pre l hle) pre ((List.prefix_append _ _).trans hle)
    exact (hP _ pre l h).2 (hok pre l hle)

end Lts

/-! ### Orbits -/

/-- **A function on finitely many states meets a property soon**, if ever: in fewer steps than there
are states. -/
theorem exists_iterate_lt_card {α : Type*} {f : α → α} {s : Finset α} {a : α} {p : α → Prop}
    (hf : ∀ x ∈ s, f x ∈ s) (ha : a ∈ s) (h : ∃ k, p (f^[k] a)) : ∃ k < s.card, p (f^[k] a) := by
  classical
  have hmem : ∀ k, f^[k] a ∈ s := by
    intro k
    induction k with
    | zero => exact ha
    | succ k ih =>
      rw [Function.iterate_succ_apply']
      exact hf _ ih
  refine ⟨Nat.find h, ?_, Nat.find_spec h⟩
  by_contra hle
  -- otherwise the orbit returns to a state before it meets the property, and so meets it earlier
  obtain ⟨i, hi, j, hj, hne, heq⟩ := Finset.exists_ne_map_eq_of_card_lt_of_maps_to
    (s := Finset.range (s.card + 1)) (by simp) fun k _ => hmem k
  have hshort : ∀ i j, i < j → j ≤ s.card → f^[i] a = f^[j] a → False := by
    intro i j hij hj heq
    have hrest : f^[Nat.find h - j + i] a = f^[Nat.find h] a := by
      rw [Function.iterate_add_apply, heq, ← Function.iterate_add_apply,
        Nat.sub_add_cancel (by omega)]
    refine Nat.find_min h (m := Nat.find h - j + i) (by omega) ?_
    rw [hrest]
    exact Nat.find_spec h
  rw [Finset.mem_range] at hi hj
  rcases Nat.lt_or_gt_of_ne hne with hij | hij
  · exact hshort i j hij (by omega) heq
  · exact hshort j i hij (by omega) heq.symm

end Shiro
