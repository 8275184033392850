import Teres.Laws.Tools.BldRuns

/-!
# What the ancestor walk detects

The walk up the chain compares `p->current`, the head, at every step, and not `tr->current`. So a
cycle of two tasks or more is never met again, and a run that enters one does not return
(`endless`), whatever the fuel. Where none can be entered the run returns, and fails if a cycle is
reachable at all (`detects_iff`).
-/

namespace Teres.Tools.Bld

open Relation InTurn

variable {tasks : List Task} {workspace : Str} {status : Ptr tasks → ℤ}

/-- What the chain is there for: the run returns, it fails if a cycle is reachable and every command
spawned succeeded, and no chain holds a task twice. -/
def Detects (workspace : Str) (status : Ptr tasks → ℤ) (t : Ptr tasks) : Prop :=
  ∃ N, ∀ fuel ≥ N, ∃ ret s, depends workspace status fuel [] t (init tasks) = some (ret, s) ∧
    ((∃ c, ReflTransGen Needs t c ∧ TransGen Needs c c) → Succeeded status s → ret ≠ 0) ∧
    ∀ tree ∈ s.trees, tree.Nodup

/-- A cycle of `Enters` can be reached: the run gets into a cycle that the walk does not see. -/
def Endless (status : Ptr tasks → ℤ) (t : Ptr tasks) : Prop :=
  ∃ c, ReflTransGen (Enters status) t c ∧ TransGen (Enters status) c c

/-- A run into a cycle goes on. -/
theorem Endless.next {t : Ptr tasks} (h : Endless status t) :
    ∃ c, Enters status t c ∧ Endless status c := by
  obtain ⟨c, reach, cycle⟩ := h
  rcases reach.cases_head with rfl | ⟨d, step, reach⟩
  · obtain ⟨d, step, back⟩ := TransGen.head'_iff.mp cycle
    exact ⟨d, step, t, back, cycle⟩
  · exact ⟨d, step, c, reach, cycle⟩

/-- A task that is done has succeeded. -/
def Ready (status : Ptr tasks → ℤ) (s : State tasks) : Prop := ∀ c, s.done c = true → status c = 0

/-- The walk lets a task pass that is not the caller. -/
theorem head_ne {t a : Ptr tasks} (other : a ≠ t) (p : List (Ptr tasks)) :
    (t :: p).head? ≠ some a :=
  fun same => other (Option.some.inj same).symm

/-- A clean task returns success, if it returns. -/
theorem clean_quiet (fuel : ℕ) {t : Ptr tasks} (clean : Clean status t) {p : List (Ptr tasks)}
    (head : p.head? ≠ some t) {s : State tasks} (ready : Ready status s) :
    Quiet (Ready status) (depends workspace status fuel p t s) := by
  induction fuel generalizing t p s with
  | zero => exact fun ret s' h => nomatch h
  | succ fuel ih =>
    obtain ⟨other, below, own⟩ := clean
    have each : ∀ a ∈ calls t, ∀ s, Ready status s →
        Quiet (Ready status) (depends workspace status fuel (t :: p) a s) := fun a ha s ready => by
      have needs := mem_calls.mp ha
      exact ih (below a needs) (head_ne (other a needs) p) ready
    have quiet : Quiet (Ready status) (inTurn (depends workspace status fuel (t :: p)) (calls t)
        { s with trees := s.trees ++ [t :: p] }) := inTurn_quiet each ready
    rw [depends_succ, if_neg head]
    intro ret s' eq
    obtain ⟨⟨ret₁, s₁⟩, eq₁, eq⟩ := Option.bind_eq_some_iff.mp eq
    obtain ⟨rfl, ready₁⟩ := quiet ret₁ s₁ eq₁
    have last : exec workspace status t s₁ = (ret, s') := Option.some.inj eq
    unfold exec at last
    split_ifs at last with done fails
    · obtain ⟨rfl, rfl⟩ := Prod.mk.inj last
      exact ⟨rfl, ready₁⟩
    · exact absurd own fails
    · obtain ⟨rfl, rfl⟩ := Prod.mk.inj last
      refine ⟨rfl, fun c hc => ?_⟩
      rcases eq_or_ne c t with rfl | other
      · exact own
      · exact ready₁ c ((Function.update_of_ne other true s₁.done).symm.trans hc)

/-- **The cycle the walk does not see**: a run into it never returns. -/
theorem endless (workspace : Str) (fuel : ℕ) {t : Ptr tasks} (h : Endless status t)
    {p : List (Ptr tasks)} (head : p.head? ≠ some t) {s : State tasks} (ready : Ready status s) :
    depends workspace status fuel p t s = none := by
  induction fuel generalizing t p s with
  | zero => rfl
  | succ fuel ih =>
    obtain ⟨c, ⟨other, pre, post, split, clean⟩, h⟩ := h.next
    have stuck : inTurn (depends workspace status fuel (t :: p)) (calls t)
        { s with trees := s.trees ++ [t :: p] } = none := by
      rw [split]
      refine inTurn_stuck (I := Ready status) (fun a ha s ready => ?_) (fun s ready => ?_) ready
      · exact clean_quiet fuel (clean a ha).2 (head_ne (clean a ha).1 p) ready
      · exact ih h (head_ne other p) ready
    rw [depends_succ, if_neg head, stuck]
    rfl

theorem ready_init : Ready status (init tasks) := fun _ h => absurd h Bool.false_ne_true

/-- **A run that enters no cycle** returns, and leaves what `Settled` says. -/
theorem run_settled (workspace : Str) {t : Ptr tasks} (free : ¬Endless status t) :
    ∃ N, ∀ fuel ≥ N, ∃ ret s, depends workspace status fuel [] t (init tasks) = some (ret, s) ∧
      Settled status t (init tasks) ret s := by
  have walk : Acc (flip (Enters status)) t :=
    Descent.acc_of_not_cycle fun c reach cycle => free ⟨c, reach, cycle⟩
  obtain ⟨N, settle⟩ : Settles workspace status t := settles walk
  refine ⟨N, fun fuel enough => ?_⟩
  exact settle fuel enough [] List.nodup_nil (fun a mem => absurd mem List.not_mem_nil)
    (init tasks) account_init (fun c mem => absurd mem List.not_mem_nil)

/-- **When the cycle check works.** The run for `t` returns, fails on a reachable cycle and never
holds a task twice in a chain exactly when it can enter no cycle of two tasks or more: no walk from
`t` along calls whose earlier siblings succeed comes back to one of its tasks. -/
theorem detects_iff (tasks : List Task) (workspace : Str) (status : Ptr tasks → ℤ)
    (t : Ptr tasks) : Detects workspace status t ↔
      ¬ ∃ c, ReflTransGen (Enters status) t c ∧ TransGen (Enters status) c c := by
  constructor
  · rintro ⟨N, run⟩ cycle
    obtain ⟨ret, s, eq, _⟩ := run N le_rfl
    have stuck := endless workspace N cycle (p := []) (fun h => nomatch h) ready_init
    exact absurd (stuck.symm.trans eq) (fun h => nomatch h)
  · intro free
    obtain ⟨N, settle⟩ := run_settled workspace free
    refine ⟨N, fun fuel hf => ?_⟩
    obtain ⟨ret, s, eq, settled⟩ := settle fuel hf
    refine ⟨ret, s, eq, ?_, settled.account.paths⟩
    rintro ⟨c, reach, cycle⟩ _ zero
    exact (settled.ok zero).2.1.not_cycle reach cycle

/-- Two tasks that depend on each other. -/
def pair : List Task := [.needing "A" ["B"], .needing "B" ["A"]]

/-- **The cycle of two.** With every command succeeding, the run for either of two tasks that depend
on each other does not return. -/
theorem pair_not_detects : ¬ Detects [] (fun _ : Ptr pair => 0) ⟨0, by decide⟩ := by
  rintro ⟨N, run⟩
  obtain ⟨ret, s, eq, _⟩ := run N le_rfl
  have there : Enters (fun _ : Ptr pair => 0) ⟨0, by decide⟩ ⟨1, by decide⟩ :=
    ⟨by decide, [], [], by decide, fun d hd => absurd hd List.not_mem_nil⟩
  have back : Enters (fun _ : Ptr pair => 0) ⟨1, by decide⟩ ⟨0, by decide⟩ :=
    ⟨by decide, [], [], by decide, fun d hd => absurd hd List.not_mem_nil⟩
  have stuck := endless [] N ⟨_, .refl, .tail (.single there) back⟩ (p := [])
    (fun h => nomatch h) ready_init
  exact absurd (stuck.symm.trans eq) (fun h => nomatch h)

end Teres.Tools.Bld
