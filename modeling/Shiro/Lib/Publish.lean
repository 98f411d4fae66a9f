import Mathlib.Data.List.Infix
import Shiro.Lib.Lts

/-!
# Buffers that several tasks publish

Some tasks share data and a display.  A task works in jobs: it changes the data, statement by
statement, and then copies what has changed to the display, with a load and a store for each place.
The tasks are interrupted between any two of these steps, also between the load and the store, and
then the display may be left with an outdated value: such a place is `stale`.

* `Stmt`, `State`, `lts` : statements, states and interleavings of jobs.
* `Published` : a job copies what it changes.
* `shown_of_idle` : **when all jobs are done the display shows the data**, except in stale places.
* `shown_of_picture` : what the data can never show, the display never shows.
* `isolated` : **a task that keeps to its own part leaves there what it would alone**, and a job
  that overwrites its part makes the earlier ones irrelevant (`isolated_last`).
-/

namespace Shiro

namespace Publish

variable {D P V T J : Type*}

/-- A statement. -/
inductive Stmt (D P : Type*) where
  /-- The data change. -/
  | act (f : D → D)
  /-- What the data show at `p` is loaded into a register. -/
  | load (p : P)
  /-- The register is stored to the display. -/
  | store (p : P)

/-- The copies of some places. -/
def copy (ps : List P) : List (Stmt D P) := ps.flatMap fun p => [.load p, .store p]

/-- The changes that a piece of code makes to the data. -/
def acts : List (Stmt D P) → List (D → D)
  | [] => []
  | .act f :: code => f :: acts code
  | _ :: code => acts code

/-- A task: what is left of its job, and its register. -/
structure Task (D P V : Type*) where
  code : List (Stmt D P)
  reg : V

/-- The data, the display and the tasks. -/
structure State (D P V T : Type*) where
  data : D
  shown : P → V
  tasks : T → Task D P V
  /-- The last copy to this place was outdated when it was made, or before the first job began. -/
  stale : P → Bool

/-- What happens. -/
inductive Label (T J : Type*) where
  /-- A job begins. -/
  | start (j : J)
  /-- A task takes its next step. -/
  | next (t : T)

/-- The jobs of the tasks, and what the data show. -/
structure System (D P V T J : Type*) where
  picture : D → P → V
  owner : J → T
  code : J → List (Stmt D P)

variable (S : System D P V T J)

/-- The change can be seen at `p`. -/
def System.Changes (f : D → D) (p : P) : Prop := ∃ d, S.picture (f d) p ≠ S.picture d p

/-- The code copies the place `p`. -/
def Copies (code : List (Stmt D P)) (p : P) : Prop := [Stmt.load p, Stmt.store p] <:+: code

/-- What the code changes it copies later on. -/
def System.Published : List (Stmt D P) → Prop
  | [] => True
  | .act f :: code => (∀ p, S.Changes f p → Copies code p) ∧ System.Published code
  | .load _ :: code => System.Published code
  | .store _ :: code => System.Published code

/-- The task `t` is about to bring the place `p` up to date. -/
def System.Pending (s : State D P V T) (t : T) (p : P) : Prop :=
  Copies (s.tasks t).code p ∨
    (∃ code, (s.tasks t).code = .store p :: code) ∧ (s.tasks t).reg = S.picture s.data p

/-- The invariant: a place that is out of date is stale, or some task will see to it. -/
structure System.Inv (s : State D P V T) : Prop where
  published : ∀ t, S.Published (s.tasks t).code
  covered : ∀ p, s.stale p = true ∨ s.shown p = S.picture s.data p ∨ ∃ t, S.Pending s t p

variable {S} {s s' : State D P V T} {t : T} {p : P} {j : J} {f : D → D}
  {code : List (Stmt D P)} {l : Label T J} {ls : List (Label T J)}

/-! ### Copies -/

theorem copies_copy {ps : List P} (hp : p ∈ ps) (code : List (Stmt D P)) :
    Copies (code ++ copy ps) p := by
  obtain ⟨pre, post, rfl⟩ := List.append_of_mem hp
  refine ⟨code ++ copy pre, copy post, ?_⟩
  simp [copy]

/-- A copy that is not the next is still to come. -/
theorem Copies.of_cons {e : Stmt D P} (h : Copies (e :: code) p) (hne : e ≠ .load p) :
    Copies code p := by
  rcases List.infix_cons_iff.1 h with hpre | hin
  · exact absurd (List.cons_prefix_cons.1 hpre).1.symm hne
  · exact hin

theorem published_cons {e : Stmt D P} (h : S.Published (e :: code)) : S.Published code := by
  cases e with
  | act f => exact h.2
  | load p => exact h
  | store p => exact h

/-- **A job that ends with a copy of all that it may change is published.** -/
theorem published_append_copy {fs : List (D → D)} {ps : List P}
    (h : ∀ f ∈ fs, ∀ p, S.Changes f p → p ∈ ps) :
    S.Published (fs.map Stmt.act ++ copy ps) := by
  induction fs with
  | nil =>
    clear h
    rw [List.map_nil, List.nil_append]
    induction ps with
    | nil => trivial
    | cons p ps ih => exact ih
  | cons f fs ih =>
    exact ⟨fun p hp => copies_copy (h f List.mem_cons_self p hp) _,
      ih fun g hg => h g (List.mem_cons_of_mem _ hg)⟩

/-- Every store follows a load from the same place. -/
def Copying : List (Stmt D P) → Prop
  | [] => True
  | .act _ :: code => Copying code
  | .load p :: .store q :: code => q = p ∧ Copying code
  | _ => False

/-- The code goes on with a register in which a value for its first store has been loaded. -/
def Loaded (Q : P → V → Prop) (x : Task D P V) : Prop :=
  Copying x.code ∨ ∃ p code, x.code = .store p :: code ∧ Copying code ∧ Q p x.reg

theorem copying_append_copy (fs : List (D → D)) (ps : List P) :
    Copying (fs.map Stmt.act ++ copy ps) := by
  induction fs with
  | nil =>
    rw [List.map_nil, List.nil_append]
    induction ps with
    | nil => trivial
    | cons p ps ih => exact ⟨rfl, ih⟩
  | cons f fs ih => exact ih

/-- The changes `fs`, one after the other. -/
def runActs (fs : List (D → D)) (d : D) : D := fs.foldl (fun d f => f d) d

/-- A change that the task `t` makes to its own part of the data, on which alone it depends.  Data
have the same part of `t` where `same t` holds. -/
structure Keeps (same : T → D → D → Prop) (t : T) (f : D → D) : Prop where
  congr : ∀ d d', same t d d' → same t (f d) (f d')
  others : ∀ u ≠ t, ∀ d, same u (f d) d

variable {same : T → D → D → Prop} {fs : List (D → D)} {d d' : D}

theorem Keeps.runActs (h : ∀ f ∈ fs, Keeps same t f) (hd : same t d d') :
    same t (runActs fs d) (runActs fs d') := by
  induction fs generalizing d d' with
  | nil => exact hd
  | cons f fs ih =>
    exact ih (fun g hg => h g (List.mem_cons_of_mem _ hg))
      ((h f List.mem_cons_self).congr d d' hd)

/-- The changes of a job are those in front of its copies. -/
theorem acts_append_copy (fs : List (D → D)) (ps : List P) :
    acts (fs.map Stmt.act ++ copy ps) = fs := by
  induction fs with
  | nil =>
    rw [List.map_nil, List.nil_append]
    induction ps with
    | nil => rfl
    | cons p ps ih => exact ih
  | cons f fs ih => exact congrArg (f :: ·) ih

theorem runActs_append (fs gs : List (D → D)) (d : D) :
    runActs (fs ++ gs) d = runActs gs (runActs fs d) := List.foldl_append

/-- A place that a step leaves as it was is still covered, by the same task. -/
theorem System.Pending.congr {u : T} (h : S.Pending s u p) (htask : s'.tasks u = s.tasks u)
    (hpicture : S.picture s'.data p = S.picture s.data p) : S.Pending s' u p := by
  unfold System.Pending at *
  rwa [htask, hpicture]

/-! ### Steps -/

variable [DecidableEq T]

namespace State

variable (s : State D P V T)

/-- The task `t` goes on with `x`. -/
def setTask (t : T) (x : Task D P V) : State D P V T :=
  { s with tasks := Function.update s.tasks t x }

end State

@[simp] theorem setTask_self (s : State D P V T) (t : T) (x : Task D P V) :
    (s.setTask t x).tasks t = x := Function.update_self _ _ _

theorem setTask_of_ne (s : State D P V T) {t u : T} (x : Task D P V) (h : u ≠ t) :
    (s.setTask t x).tasks u = s.tasks u := Function.update_of_ne h _ _

/-- The jobs of the task `t` that a run begins. -/
def System.jobs (S : System D P V T J) (t : T) (ls : List (Label T J)) : List J :=
  ls.filterMap fun
    | .start j => if S.owner j = t then some j else none
    | .next _ => none

/-- What the task `t` changes in a run. -/
def System.alone (S : System D P V T J) (t : T) (ls : List (Label T J)) : List (D → D) :=
  (S.jobs t ls).flatMap fun j => acts (S.code j)

theorem alone_snoc (S : System D P V T J) (t : T) (ls : List (Label T J)) (l : Label T J) :
    S.alone t (ls ++ [l]) = S.alone t ls ++ S.alone t [l] := by
  rw [System.alone, System.jobs, List.filterMap_append, List.flatMap_append]
  rfl

theorem mem_jobs (h : j ∈ S.jobs t ls) : S.owner j = t := by
  obtain ⟨l, -, hl⟩ := List.mem_filterMap.1 h
  cases l with
  | next u => cases hl
  | start i =>
    simp only [Option.ite_none_right_eq_some, Option.some.injEq] at hl
    exact hl.2 ▸ hl.1

variable [DecidableEq P] [DecidableEq V]

/-- A step. -/
def System.step (S : System D P V T J) (s : State D P V T) : Label T J → Option (State D P V T)
  | .start j =>
    match (s.tasks (S.owner j)).code with
    | [] => some (s.setTask (S.owner j) ⟨S.code j, (s.tasks (S.owner j)).reg⟩)
    | _ :: _ => none
  | .next t =>
    let reg := (s.tasks t).reg
    match (s.tasks t).code with
    | [] => none
    | .act f :: code => some { s.setTask t ⟨code, reg⟩ with data := f s.data }
    | .load p :: code => some (s.setTask t ⟨code, S.picture s.data p⟩)
    | .store p :: code =>
      some { s.setTask t ⟨code, reg⟩ with
        shown := Function.update s.shown p reg
        stale := Function.update s.stale p (reg != S.picture s.data p) }

/-- Between the jobs, with a display that is up to date except in stale places. -/
structure System.Init (S : System D P V T J) (s : State D P V T) : Prop where
  idle : ∀ t, (s.tasks t).code = []
  shown : ∀ p, s.stale p = false → s.shown p = S.picture s.data p

/-- All interleavings of all jobs. -/
def System.lts (S : System D P V T J) : Lts (State D P V T) (Label T J) := .det S.Init S.step

/-- **What a step does.** -/
theorem step_cases (h : S.step s l = some s') :
    (∃ j, l = .start j ∧ (s.tasks (S.owner j)).code = [] ∧
      s' = s.setTask (S.owner j) ⟨S.code j, (s.tasks (S.owner j)).reg⟩) ∨
    (∃ t f code, l = .next t ∧ (s.tasks t).code = .act f :: code ∧
      s' = { s.setTask t ⟨code, (s.tasks t).reg⟩ with data := f s.data }) ∨
    (∃ t p code, l = .next t ∧ (s.tasks t).code = .load p :: code ∧
      s' = s.setTask t ⟨code, S.picture s.data p⟩) ∨
    (∃ t p code, l = .next t ∧ (s.tasks t).code = .store p :: code ∧
      s' = { s.setTask t ⟨code, (s.tasks t).reg⟩ with
        shown := Function.update s.shown p (s.tasks t).reg
        stale := Function.update s.stale p ((s.tasks t).reg != S.picture s.data p) }) := by
  cases l with
  | start j =>
    simp only [System.step] at h
    split at h
    · rename_i hcode
      exact .inl ⟨j, rfl, hcode, (Option.some.inj h).symm⟩
    · cases h
  | next t =>
    simp only [System.step] at h
    split at h
    · cases h
    · rename_i f code hcode
      exact .inr (.inl ⟨t, f, code, rfl, hcode, (Option.some.inj h).symm⟩)
    · rename_i p code hcode
      exact .inr (.inr (.inl ⟨t, p, code, rfl, hcode, (Option.some.inj h).symm⟩))
    · rename_i p code hcode
      exact .inr (.inr (.inr ⟨t, p, code, rfl, hcode, (Option.some.inj h).symm⟩))

/-- **A task can always finish its job**, whatever the others are at. -/
theorem exists_finished (s : State D P V T) (t : T) :
    ∃ s', S.lts.Run s (List.replicate (s.tasks t).code.length (.next t)) s' ∧
      (s'.tasks t).code = [] ∧ ∀ u ≠ t, s'.tasks u = s.tasks u := by
  obtain ⟨code, hcode⟩ : ∃ code, (s.tasks t).code = code := ⟨_, rfl⟩
  rw [hcode]
  induction code generalizing s with
  | nil => exact ⟨s, .nil, hcode, fun _ _ => rfl⟩
  | cons e code ih =>
    obtain ⟨s₁, hst, htask, hothers⟩ : ∃ s₁, S.step s (.next t) = some s₁ ∧
        (s₁.tasks t).code = code ∧ ∀ u ≠ t, s₁.tasks u = s.tasks u := by
      simp only [System.step, hcode]
      cases e <;>
        exact ⟨_, rfl, congrArg Task.code (setTask_self _ _ _), fun u hu => setTask_of_ne _ _ hu⟩
    obtain ⟨s', hrun, hdone, hothers'⟩ := ih s₁ htask
    refine ⟨s', ?_, hdone, fun u hu => (hothers' u hu).trans (hothers u hu)⟩
    rw [List.length_cons, List.replicate_succ]
    exact (Lts.Run.nil.snoc hst).append hrun

/-! ### The display -/

theorem System.Inv.step (hcode : ∀ j, S.Published (S.code j)) (h : S.Inv s)
    (hst : S.step s l = some s') : S.Inv s' := by
  have hpublished : ∀ t x, S.Published x.code →
      ∀ u, S.Published ((s.setTask t x).tasks u).code := by
    intro t x hx u
    by_cases hu : u = t
    · rw [hu, setTask_self]
      exact hx
    · rw [setTask_of_ne _ _ hu]
      exact h.published u
  rcases step_cases hst with ⟨j, -, hidle, rfl⟩ | ⟨t, f, code, -, htask, rfl⟩ |
    ⟨t, p, code, -, htask, rfl⟩ | ⟨t, p, code, -, htask, rfl⟩
  · -- a new job: what was pending is pending in another task
    refine ⟨hpublished _ _ (hcode j), fun p => ?_⟩
    refine (h.covered p).imp id (Or.imp id fun ⟨u, hu⟩ => ⟨u, ?_⟩)
    have hne : u ≠ S.owner j := by
      rintro rfl
      unfold System.Pending at hu
      rw [hidle] at hu
      rcases hu with hu | ⟨⟨_, hu⟩, -⟩
      · exact absurd (List.eq_nil_of_infix_nil hu) (List.cons_ne_nil _ _)
      · cases hu
    exact hu.congr (setTask_of_ne _ _ hne) rfl
  · -- the data change: where this can be seen, the same job copies
    have hpub := h.published t
    rw [htask] at hpub
    refine ⟨hpublished _ _ hpub.2, fun p => ?_⟩
    by_cases hsame : S.picture (f s.data) p = S.picture s.data p
    · refine (h.covered p).imp id (Or.imp (fun hp => hp.trans hsame.symm) fun ⟨u, hu⟩ => ⟨u, ?_⟩)
      by_cases hut : u = t
      · subst hut
        refine .inl ?_
        show Copies ((s.setTask u ⟨code, _⟩).tasks u).code p
        rw [setTask_self]
        rcases hu with hu | ⟨⟨_, hu⟩, -⟩
        · rw [htask] at hu
          exact hu.of_cons (fun hload => by cases hload)
        · rw [htask] at hu
          cases hu
      · exact hu.congr (setTask_of_ne _ _ hut) hsame
    · refine .inr (.inr ⟨t, .inl ?_⟩)
      show Copies ((s.setTask t ⟨code, _⟩).tasks t).code p
      rw [setTask_self]
      exact hpub.1 p ⟨s.data, hsame⟩
  · -- a load: the register is up to date
    refine ⟨hpublished _ _ (published_cons (by rw [← htask]; exact h.published t)), fun q => ?_⟩
    refine (h.covered q).imp id (Or.imp id fun ⟨u, hu⟩ => ⟨u, ?_⟩)
    by_cases hut : u = t
    · subst hut
      unfold System.Pending
      rw [setTask_self]
      rcases hu with hu | ⟨⟨_, hu⟩, -⟩
      · rw [htask] at hu
        rcases List.infix_cons_iff.1 hu with hpre | hin
        · obtain ⟨heq, hrest⟩ := List.cons_prefix_cons.1 hpre
          cases heq
          obtain ⟨post, hpost⟩ := hrest
          exact .inr ⟨⟨post, hpost.symm⟩, rfl⟩
        · exact .inl hin
      · rw [htask] at hu
        cases hu
    · exact hu.congr (setTask_of_ne _ _ hut) rfl
  · -- a store: the place is up to date, or stale
    refine ⟨hpublished _ _ (published_cons (by rw [← htask]; exact h.published t)), fun q => ?_⟩
    by_cases hq : q = p
    · subst hq
      by_cases hfresh : (s.tasks t).reg = S.picture s.data q
      · exact .inr (.inl ((Function.update_self _ _ _).trans hfresh))
      · exact .inl ((Function.update_self _ _ _).trans (bne_iff_ne.2 hfresh))
    · refine (h.covered q).imp (fun hs => (Function.update_of_ne hq _ _).trans hs)
        (Or.imp (fun hs => (Function.update_of_ne hq _ _).trans hs) fun ⟨u, hu⟩ => ⟨u, ?_⟩)
      by_cases hut : u = t
      · subst hut
        refine .inl ?_
        show Copies ((s.setTask u ⟨code, _⟩).tasks u).code q
        rw [setTask_self]
        rcases hu with hu | ⟨⟨_, hu⟩, -⟩
        · rw [htask] at hu
          exact hu.of_cons (fun hload => by cases hload)
        · rw [htask] at hu
          exact absurd (Stmt.store.inj (List.cons.inj hu).1).symm hq
      · exact hu.congr (setTask_of_ne _ _ hut) rfl

/-- **When all jobs are done the display shows the data**, except where the last copy was
outdated. -/
theorem shown_of_idle (hcode : ∀ j, S.Published (S.code j)) (hs : S.lts.Reachable s)
    (hidle : ∀ t, (s.tasks t).code = []) (hstale : s.stale p = false) :
    s.shown p = S.picture s.data p := by
  have hinv : S.Inv s := by
    refine hs.induct (I := S.Inv) (fun s h => ⟨fun t => ?_, fun p => ?_⟩)
      fun s l s' h hst => h.step hcode hst
    · rw [h.idle t]
      trivial
    · exact (Bool.eq_false_or_eq_true (s.stale p)).imp id fun hfresh => .inl (h.shown p hfresh)
  rcases hinv.covered p with h | h | ⟨t, h⟩
  · rw [hstale] at h
    cases h
  · exact h
  · unfold System.Pending at h
    rw [hidle t] at h
    rcases h with h | ⟨⟨_, h⟩, -⟩
    · exact absurd (List.eq_nil_of_infix_nil h) (List.cons_ne_nil _ _)
    · cases h

/-! ### What is never shown -/

variable {s₀ : State D P V T} {I : D → Prop} {Q : P → V → Prop}

/-- What every change of every job preserves. -/
theorem data_of_run (hI : ∀ j, ∀ f ∈ acts (S.code j), ∀ d, I d → I (f d)) (h₀ : S.Init s₀)
    (hd : I s₀.data) (h : S.lts.Run s₀ ls s) : I s.data := by
  suffices hinv : I s.data ∧ ∀ t, ∀ f ∈ acts (s.tasks t).code, ∀ d, I d → I (f d) from hinv.1
  refine h.invariant (I := fun s : State D P V T =>
    I s.data ∧ ∀ t, ∀ f ∈ acts (s.tasks t).code, ∀ d, I d → I (f d)) ⟨hd, fun t f hf => ?_⟩
    fun s l s' ⟨hdata, hcode⟩ hst => ?_
  · rw [h₀.idle t] at hf
    cases hf
  have htasks : ∀ t x, (∀ f ∈ acts x.code, ∀ d, I d → I (f d)) →
      ∀ u, ∀ f ∈ acts ((s.setTask t x).tasks u).code, ∀ d, I d → I (f d) := by
    intro t x hx u
    by_cases hu : u = t
    · rw [hu, setTask_self]
      exact hx
    · rw [setTask_of_ne _ _ hu]
      exact hcode u
  rcases step_cases hst with ⟨j, -, -, rfl⟩ | ⟨t, f, code, -, htask, rfl⟩ |
    ⟨t, p, code, -, htask, rfl⟩ | ⟨t, p, code, -, htask, rfl⟩
  · exact ⟨hdata, htasks _ _ (hI j)⟩
  all_goals have hrest := hcode t
  all_goals rw [htask] at hrest
  · exact ⟨hrest f List.mem_cons_self _ hdata,
      htasks _ _ fun g hg => hrest g (List.mem_cons_of_mem _ hg)⟩
  · exact ⟨hdata, htasks _ _ hrest⟩
  · exact ⟨hdata, htasks _ _ hrest⟩

/-- **What the data can never show, the display never shows**, at any moment. -/
theorem shown_of_picture (hcode : ∀ j, Copying (S.code j))
    (hI : ∀ j, ∀ f ∈ acts (S.code j), ∀ d, I d → I (f d))
    (hQ : ∀ d, I d → ∀ p, Q p (S.picture d p)) (h₀ : S.Init s₀) (hd : I s₀.data)
    (hshown : ∀ p, Q p (s₀.shown p)) (h : S.lts.Run s₀ ls s) (p : P) : Q p (s.shown p) := by
  suffices hinv : (∀ p, Q p (s.shown p)) ∧ ∀ t, Loaded Q (s.tasks t) from hinv.1 p
  induction h with
  | nil =>
    refine ⟨hshown, fun t => .inl ?_⟩
    rw [h₀.idle t]
    trivial
  | @snoc ls s s' l hrun hst ih =>
    obtain ⟨hshown, hloaded⟩ := ih
    have hpicture := hQ _ (data_of_run hI h₀ hd hrun)
    have htasks : ∀ t x, Loaded Q x → ∀ u, Loaded Q ((s.setTask t x).tasks u) := by
      intro t x hx u
      by_cases hu : u = t
      · rw [hu, setTask_self]
        exact hx
      · rw [setTask_of_ne _ _ hu]
        exact hloaded u
    rcases step_cases hst with ⟨j, -, -, rfl⟩ | ⟨t, f, code, -, htask, rfl⟩ |
      ⟨t, p, code, -, htask, rfl⟩ | ⟨t, p, code, -, htask, rfl⟩
    · exact ⟨hshown, htasks _ _ (.inl (hcode j))⟩
    · refine ⟨hshown, htasks _ _ (.inl ?_)⟩
      rcases hloaded t with h | ⟨p, code', h, -⟩
      · rw [htask] at h
        exact h
      · rw [htask] at h
        cases h
    · refine ⟨hshown, htasks _ _ ?_⟩
      rcases hloaded t with h | ⟨p', code', h, -⟩
      · rw [htask] at h
        cases code with
        | nil => exact absurd h id
        | cons e code =>
          cases e with
          | act f => exact absurd h id
          | load q => exact absurd h id
          | store q =>
            obtain ⟨rfl, hrest⟩ := h
            exact .inr ⟨_, code, rfl, hrest, hpicture _⟩
      · rw [htask] at h
        cases h
    · rcases hloaded t with h | ⟨q, code', h, hrest, hreg⟩
      · rw [htask] at h
        exact absurd h id
      · rw [htask] at h
        obtain ⟨heq, rfl⟩ := List.cons.inj h
        obtain rfl := Stmt.store.inj heq
        refine ⟨fun k => ?_, htasks _ _ (.inl hrest)⟩
        show Q k (Function.update s.shown p (s.tasks t).reg k)
        by_cases hk : k = p
        · rw [hk, Function.update_self]
          exact hreg
        · rw [Function.update_of_ne hk]
          exact hshown k

/-! ### Tasks that keep to their own parts -/

/-- **What a task has done and what is left of its job** give what it would do alone. -/
theorem isolated_run (hrefl : ∀ t d, same t d d)
    (htrans : ∀ t d₁ d₂ d₃, same t d₁ d₂ → same t d₂ d₃ → same t d₁ d₃)
    (hkeeps : ∀ j, ∀ f ∈ acts (S.code j), Keeps same (S.owner j) f) (h₀ : S.Init s₀)
    (h : S.lts.Run s₀ ls s) :
    (∀ t, ∀ f ∈ acts (s.tasks t).code, Keeps same t f) ∧
      ∀ t, same t (runActs (acts (s.tasks t).code) s.data) (runActs (S.alone t ls) s₀.data) := by
  induction h with
  | nil =>
    refine ⟨fun t f hf => ?_, fun t => ?_⟩
    · rw [h₀.idle t] at hf
      cases hf
    · rw [h₀.idle t]
      exact hrefl t _
  | @snoc ls s s' l hrun hst ih =>
    obtain ⟨hcode, hsame⟩ := ih
    have htasks : ∀ t x, (∀ f ∈ acts x.code, Keeps same t f) →
        ∀ u, ∀ f ∈ acts ((s.setTask t x).tasks u).code, Keeps same u f := by
      intro t x hx u
      by_cases hu : u = t
      · subst hu
        rw [setTask_self]
        exact hx
      · rw [setTask_of_ne _ _ hu]
        exact hcode u
    rcases step_cases hst with ⟨j, rfl, hidle, rfl⟩ | ⟨t, f, code, rfl, htask, rfl⟩ |
      ⟨t, p, code, rfl, htask, rfl⟩ | ⟨t, p, code, rfl, htask, rfl⟩
    · refine ⟨htasks _ _ (hkeeps j), fun u => ?_⟩
      rw [alone_snoc, runActs_append]
      by_cases hu : u = S.owner j
      · subst hu
        have hj : S.alone (S.owner j) [Label.start j] = acts (S.code j) := by
          simp [System.alone, System.jobs]
        have hdone := hsame (S.owner j)
        rw [hidle] at hdone
        rw [setTask_self, hj]
        exact Keeps.runActs (hkeeps j) hdone
      · have hj : S.alone u [Label.start j] = [] := by
          simp [System.alone, System.jobs, Ne.symm hu]
        rw [setTask_of_ne _ _ hu, hj]
        exact hsame u
    · have hkept := hcode t
      rw [htask] at hkept
      have hf := hkept f List.mem_cons_self
      refine ⟨htasks _ _ fun g hg => hkept g (List.mem_cons_of_mem _ hg), fun u => ?_⟩
      rw [alone_snoc, show S.alone u [Label.next t] = [] from rfl, List.append_nil]
      by_cases hu : u = t
      · subst hu
        have hdone := hsame u
        rw [htask] at hdone
        show same u (runActs (acts ((s.setTask u ⟨code, _⟩).tasks u).code) (f s.data)) _
        rw [setTask_self]
        exact hdone
      · show same u (runActs (acts ((s.setTask t ⟨code, _⟩).tasks u).code) (f s.data)) _
        rw [setTask_of_ne _ _ hu]
        exact htrans u _ _ _ (Keeps.runActs (hcode u) (hf.others u hu s.data)) (hsame u)
    all_goals
      have hrest : acts (s.tasks t).code = acts code := by
        rw [htask]
        rfl
      refine ⟨htasks _ _ (hrest ▸ hcode t), fun u => ?_⟩
      rw [alone_snoc, show S.alone u [Label.next t] = [] from rfl, List.append_nil]
      by_cases hu : u = t
      · subst hu
        have hdone := hsame u
        rw [hrest] at hdone
        show same u (runActs (acts ((s.setTask u ⟨code, _⟩).tasks u).code) s.data) _
        rw [setTask_self]
        exact hdone
      · show same u (runActs (acts ((s.setTask t ⟨code, _⟩).tasks u).code) s.data) _
        rw [setTask_of_ne _ _ hu]
        exact hsame u

/-- **A task that keeps to its own part leaves there what it would alone**, whatever the others do
in between. -/
theorem isolated (hrefl : ∀ t d, same t d d)
    (htrans : ∀ t d₁ d₂ d₃, same t d₁ d₂ → same t d₂ d₃ → same t d₁ d₃)
    (hkeeps : ∀ j, ∀ f ∈ acts (S.code j), Keeps same (S.owner j) f) (h₀ : S.Init s₀)
    (h : S.lts.Run s₀ ls s) (hidle : (s.tasks t).code = []) :
    same t s.data (runActs (S.alone t ls) s₀.data) := by
  have hsame := (isolated_run hrefl htrans hkeeps h₀ h).2 t
  rwa [hidle] at hsame

/-- Where each job of a task overwrites its part, the last one counts. -/
theorem isolated_last {js : List J} (hrefl : ∀ t d, same t d d)
    (htrans : ∀ t d₁ d₂ d₃, same t d₁ d₂ → same t d₂ d₃ → same t d₁ d₃)
    (hkeeps : ∀ j, ∀ f ∈ acts (S.code j), Keeps same (S.owner j) f) (h₀ : S.Init s₀)
    (h : S.lts.Run s₀ ls s) (hidle : (s.tasks t).code = []) (hjobs : S.jobs t ls = js ++ [j])
    (hover : ∀ d d', same t (runActs (acts (S.code j)) d) (runActs (acts (S.code j)) d')) :
    same t s.data (runActs (acts (S.code j)) s₀.data) := by
  have hsame := isolated hrefl htrans hkeeps h₀ h hidle
  rw [System.alone, hjobs, List.flatMap_append, List.flatMap_singleton, runActs_append] at hsame
  exact htrans t _ _ _ hsame (hover _ _)

end Publish

end Shiro
