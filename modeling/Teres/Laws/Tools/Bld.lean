import Teres.Base.Descent
import Teres.Base.InTurn
import Teres.Tools.Bld

/-!
# What the build driver runs

`bld__depends` is read as a walk of a graph: a task needs every task that carries one of its labels
(`Needs`), and the two loops of the code make the calls of that list in turn (`depends_succ`). The
ancestor walk compares only the head of the chain, so it stops a task that needs itself and no
longer cycle.

What the walk does depends on which calls it gets to. `Clean` tasks return success. `Enters` is the
edge relation without the calls behind one that is not clean, and the walk ends exactly where
`Enters` has no cycle: `settles` is the account of what it has done by then, and `stuck` the
converse.
-/

namespace Teres.Tools.Bld

open Relation InTurn

/-! ## The graph -/

/-- The labels a task depends on: the slots before the first empty one. -/
def Task.labels (t : Task) : List Str := (t.dependsOn.take maxChildren).takeWhile (· ≠ [])

variable {tasks : List Task}

/-- `t` depends on a label that `c` carries. -/
def Needs (t c : Ptr tasks) : Prop := (tasks.get c).label ∈ (tasks.get t).labels

/-- The recursive calls for a task, in order. -/
def calls (t : Ptr tasks) : List (Ptr tasks) :=
  (tasks.get t).labels.flatMap fun s =>
    (List.finRange tasks.length).filter fun c => s = (tasks.get c).label

theorem mem_calls {t c : Ptr tasks} : c ∈ calls t ↔ Needs t c := by
  unfold calls Needs
  rw [List.mem_flatMap]
  constructor
  · rintro ⟨s, hs, hc⟩
    have same : s = (tasks.get c).label := of_decide_eq_true (List.mem_filter.mp hc).2
    exact same ▸ hs
  · intro h
    exact ⟨_, h, List.mem_filter.mpr ⟨List.mem_finRange c, decide_eq_true rfl⟩⟩

/-! ## The loops -/

section Loops

variable (call : Ptr tasks → State tasks → Option (ℤ × State tasks))

theorem eachTask_eq (s : Str) (cs : List (Ptr tasks)) (st : State tasks) :
    eachTask call s cs st = inTurn call (cs.filter fun c => s = (tasks.get c).label) st := by
  induction cs generalizing st with
  | nil => rfl
  | cons c cs ih =>
    unfold eachTask
    split_ifs with same
    · rw [List.filter_cons_of_pos (by simpa using same), inTurn]
      simp only [ih]
    · rw [List.filter_cons_of_neg (by simpa using same), ih]

theorem eachLabel_eq (slots : List Str) (st : State tasks) :
    eachLabel call slots st = inTurn call ((slots.takeWhile (· ≠ [])).flatMap fun s =>
      (List.finRange tasks.length).filter fun c => s = (tasks.get c).label) st := by
  induction slots generalizing st with
  | nil => rfl
  | cons s slots ih =>
    unfold eachLabel
    split_ifs with filled
    · rw [List.takeWhile_cons_of_pos (by simpa using filled), List.flatMap_cons, inTurn_append,
        eachTask_eq]
      simp only [ih]
      rfl
    · rw [List.takeWhile_cons_of_neg (by simpa using filled)]
      rfl

end Loops

/-- The walk up the chain looks at its head only. -/
theorem meets_eq (p : List (Ptr tasks)) (t : Ptr tasks) :
    meets p t p = decide (p.head? = some t) := by
  have walk : ∀ tr : List (Ptr tasks), tr ≠ [] → meets p t tr = decide (p.head? = some t) := by
    intro tr
    induction tr with
    | nil => exact fun h => absurd rfl h
    | cons a parent ih =>
      intro _
      unfold meets
      cases parent with
      | nil => exact Bool.or_false _
      | cons b parent => rw [ih (List.cons_ne_nil b parent), Bool.or_self]
  cases p with
  | nil => rfl
  | cons a p => exact walk (a :: p) (List.cons_ne_nil a p)

variable (workspace : Str) (status : Ptr tasks → ℤ)

/-- One call of `bld__depends`, by its calls in turn. -/
theorem depends_succ (fuel : ℕ) (p : List (Ptr tasks)) (t : Ptr tasks) (s : State tasks) :
    depends workspace status (fuel + 1) p t s =
      if p.head? = some t then some (1, s)
      else (inTurn (depends workspace status fuel (t :: p)) (calls t)
        { s with trees := s.trees ++ [t :: p] }).bind fun r =>
          if r.1 ≠ 0 then some r else some (exec workspace status t r.2) := by
  rw [depends, meets_eq, eachLabel_eq]
  simp only [decide_eq_true_eq]
  rfl

/-! ## Which calls are made -/

/-- A task that returns success: its commands succeed, and it meets no cycle. -/
inductive Clean (status : Ptr tasks → ℤ) : Ptr tasks → Prop
  | mk {t : Ptr tasks} (other : ∀ c, Needs t c → c ≠ t) (below : ∀ c, Needs t c → Clean status c)
      (own : status t = 0) : Clean status t

/-- The call from `t` to `c` is made: the calls before it return success, and `c` is not `t`. -/
def Enters (status : Ptr tasks → ℤ) (t c : Ptr tasks) : Prop :=
  c ≠ t ∧ ∃ pre post, calls t = pre ++ c :: post ∧ ∀ d ∈ pre, d ≠ t ∧ Clean status d

variable {status}

theorem Enters.needs {t c : Ptr tasks} (h : Enters status t c) : Needs t c := by
  obtain ⟨_, pre, post, split, _⟩ := h
  exact mem_calls.mp (split ▸ List.mem_append_right pre List.mem_cons_self)

theorem Clean.own {t : Ptr tasks} (h : Clean status t) : status t = 0 := by
  cases h with
  | mk _ _ own => exact own

theorem Clean.reach {t c : Ptr tasks} (h : Clean status t) (reach : ReflTransGen Needs t c) :
    Clean status c := by
  induction reach with
  | refl => exact h
  | tail _ step ih =>
    cases ih with
    | mk _ below _ => exact below _ step

theorem Clean.acc {t : Ptr tasks} (h : Clean status t) : Acc (flip Needs) t := by
  induction h with
  | mk _ _ _ ih => exact Acc.intro _ fun c step => ih c step

/-- Below a clean task there is no cycle at all. -/
theorem Clean.not_cycle {t : Ptr tasks} (h : Clean status t) {c : Ptr tasks}
    (reach : ReflTransGen Needs t c) : ¬ TransGen Needs c c :=
  Descent.not_cycle_of_acc h.acc reach

end Teres.Tools.Bld
