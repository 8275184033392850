import Mathlib.Data.Fintype.EquivFin
import Teres.Laws.Tools.Bld

/-!
# Whole runs of the build driver

`Account` is what holds of a state whenever a command has returned, and `Settled` what one call of
`bld__depends` leaves of it. `settles` proves the two together, by induction on the walk that
`Enters` allows and, inside a task, on its calls.

`make_runs_in_order` reads the order of execution of an acyclic list off it.
-/

namespace Teres.Tools.Bld

open Relation InTurn

variable {tasks : List Task} {workspace : Str} {status : Ptr tasks → ℤ}

/-! ## The account of a run -/

/-- A state after some commands: each ran once, after all it depends on, and every one but the last
succeeded; no chain holds a task twice. -/
structure Account (status : Ptr tasks → ℤ) (s : State tasks) : Prop where
  done : ∀ c, s.done c = true ↔ c ∈ s.ran
  once : s.ran.Nodup
  after : ∀ l c r, s.ran = l ++ c :: r → ∀ d, Needs c d → d ∈ l
  success : ∀ l c r, s.ran = l ++ c :: r → r ≠ [] → status c = 0
  paths : ∀ tree ∈ s.trees, tree.Nodup

/-- Every command so far succeeded. -/
def Succeeded (status : Ptr tasks → ℤ) (s : State tasks) : Prop := ∀ c ∈ s.ran, status c = 0

theorem account_init : Account status (init tasks) where
  done _ := ⟨fun h => absurd h Bool.false_ne_true, fun h => absurd h List.not_mem_nil⟩
  once := List.nodup_nil
  after l c r h := absurd h.symm (List.append_ne_nil_of_right_ne_nil l (List.cons_ne_nil c r))
  success l c r h := absurd h.symm (List.append_ne_nil_of_right_ne_nil l (List.cons_ne_nil c r))
  paths _ h := absurd h List.not_mem_nil

/-- A chain without repetition may be built. -/
theorem Account.enter {s : State tasks} (h : Account status s) {tree : List (Ptr tasks)}
    (path : tree.Nodup) : Account status { s with trees := s.trees ++ [tree] } where
  done := h.done
  once := h.once
  after := h.after
  success := h.success
  paths x hx := by
    rcases List.mem_append.mp hx with old | new
    · exact h.paths x old
    · rw [List.mem_singleton.mp new]
      exact path

/-- Where a list extended by one element splits. -/
theorem split_snoc {α : Type*} {l l' r : List α} {a c : α} (h : l ++ [a] = l' ++ c :: r) :
    (∃ r', r = r' ++ [a] ∧ l = l' ++ c :: r') ∨ (r = [] ∧ c = a ∧ l = l') := by
  rcases List.eq_nil_or_concat r with rfl | ⟨r', b, rfl⟩
  · obtain ⟨rfl, same⟩ := List.append_inj' h rfl
    exact .inr ⟨rfl, (List.cons.inj same).1.symm, rfl⟩
  · rw [List.concat_eq_append, ← List.cons_append, ← List.append_assoc] at h
    obtain ⟨rfl, same⟩ := List.append_inj' h rfl
    exact .inl ⟨r', by rw [List.concat_eq_append, (List.cons.inj same).1], rfl⟩

/-- `bld__exec` keeps the account, if all that the task depends on has run and succeeded. -/
theorem account_exec (workspace : Str) {s : State tasks} (h : Account status s)
    (good : Succeeded status s) {t : Ptr tasks} (ready : ∀ d, Needs t d → d ∈ s.ran) :
    Account status (exec workspace status t s).2 ∧
      (∃ new, (exec workspace status t s).2.ran = s.ran ++ new ∧ ∀ c ∈ new, c = t) ∧
      t ∈ (exec workspace status t s).2.ran ∧
      ((exec workspace status t s).1 = 0 ↔ status t = 0) := by
  unfold exec
  by_cases done : s.done t = true
  · have old := (h.done t).mp done
    rw [if_pos done]
    exact ⟨h, ⟨[], (List.append_nil _).symm, fun c hc => absurd hc List.not_mem_nil⟩, old,
      iff_of_true rfl (good t old)⟩
  · have new : t ∉ s.ran := fun mem => done ((h.done t).mpr mem)
    have ran : ∀ d (x : Spawn tasks), x.task = t →
        State.ran { s with done := d, spawned := s.spawned ++ [x] } = s.ran ++ [t] := by
      rintro d x rfl
      exact List.map_append
    rw [if_neg done]
    have account : Account status { s with
        done := Function.update s.done t true
        spawned := s.spawned ++ [⟨t, (tasks.get t).argv, (tasks.get t).directory workspace⟩] } := by
      refine ⟨fun c => ?_, ?_, fun l c r split => ?_, fun l c r split more => ?_, h.paths⟩
      · rw [ran _ _ rfl, List.mem_append, List.mem_singleton]
        rcases eq_or_ne c t with rfl | other
        · simp
        · simp only [Function.update_of_ne other, h.done c, other, or_false]
      · rw [ran _ _ rfl]
        exact List.nodup_append.mpr ⟨h.once, List.nodup_singleton t,
          fun a ha b hb same => new (List.mem_singleton.mp hb ▸ same ▸ ha)⟩
      · rw [ran _ _ rfl] at split
        rcases split_snoc split with ⟨r', _, old⟩ | ⟨_, rfl, rfl⟩
        · exact h.after l c r' old
        · exact ready
      · rw [ran _ _ rfl] at split
        rcases split_snoc split with ⟨r', _, old⟩ | ⟨rfl, _, _⟩
        · exact good c (old ▸ List.mem_append_right l List.mem_cons_self)
        · exact absurd rfl more
    have grows (d : Ptr tasks → Bool) (x : Spawn tasks) (same : x.task = t) :
        ∃ new, State.ran { s with done := d, spawned := s.spawned ++ [x] } = s.ran ++ new ∧
          ∀ c ∈ new, c = t :=
      ⟨[t], ran d x same, fun c hc => List.mem_singleton.mp hc⟩
    have mem (d : Ptr tasks → Bool) (x : Spawn tasks) (same : x.task = t) :
        t ∈ State.ran { s with done := d, spawned := s.spawned ++ [x] } := by
      rw [ran d x same]
      exact List.mem_append_right _ (List.mem_singleton.mpr rfl)
    split_ifs with fails
    · exact ⟨account, grows _ _ rfl, mem _ _ rfl,
        iff_of_false (show (-1 : ℤ) ≠ 0 by decide) fails⟩
    · exact ⟨account, grows _ _ rfl, mem _ _ rfl, iff_of_true rfl (not_not.mp fails)⟩

/-! ## What one call leaves -/

/-- What a call of `bld__depends` for `t` leaves of the state `s`, with its result. -/
structure Settled (status : Ptr tasks → ℤ) (t : Ptr tasks) (s : State tasks) (ret : ℤ)
    (s' : State tasks) : Prop where
  account : Account status s'
  grows : ∃ new, s'.ran = s.ran ++ new ∧ ∀ c ∈ new, ReflTransGen Needs t c
  ok : ret = 0 → Succeeded status s' ∧ Clean status t ∧ ∀ c, ReflTransGen Needs t c → c ∈ s'.ran
  blocked : ret ≠ 0 → ∃ c, ReflTransGen Needs t c ∧ (Needs c c ∨ c ∈ s'.ran ∧ status c ≠ 0)

/-- The same of the remaining calls for `t`. -/
structure SettledCalls (status : Ptr tasks → ℤ) (t : Ptr tasks) (cs : List (Ptr tasks))
    (s : State tasks) (ret : ℤ) (s' : State tasks) : Prop where
  account : Account status s'
  grows : ∃ new, s'.ran = s.ran ++ new ∧ ∀ c ∈ new, ReflTransGen Needs t c
  ok : ret = 0 → Succeeded status s' ∧
    ∀ b ∈ cs, b ≠ t ∧ Clean status b ∧ ∀ c, ReflTransGen Needs b c → c ∈ s'.ran
  blocked : ret ≠ 0 → ∃ c, ReflTransGen Needs t c ∧ (Needs c c ∨ c ∈ s'.ran ∧ status c ≠ 0)

/-- With enough fuel a call returns and leaves what `Settled` says. -/
def Settles (workspace : Str) (status : Ptr tasks → ℤ) (t : Ptr tasks) : Prop :=
  ∃ N, ∀ fuel ≥ N, ∀ p : List (Ptr tasks), p.Nodup → (∀ a ∈ p, TransGen (Enters status) a t) →
    ∀ s, Account status s → Succeeded status s →
      ∃ ret s', depends workspace status fuel p t s = some (ret, s') ∧ Settled status t s ret s'

/-- A task that needs itself is met at the head of the chain. -/
theorem depends_self (fuel : ℕ) (p : List (Ptr tasks)) (t : Ptr tasks) (s : State tasks) :
    depends workspace status (fuel + 1) (t :: p) t s = some (1, s) := by
  rw [depends_succ]
  exact if_pos rfl

/-- With fuel from `N` on, the calls `cs` for `t` return and leave what `SettledCalls` says. -/
def CallsSettle (workspace : Str) (status : Ptr tasks → ℤ) (t : Ptr tasks) (cs : List (Ptr tasks))
    (N : ℕ) : Prop :=
  ∀ fuel ≥ N, ∀ p : List (Ptr tasks), (t :: p).Nodup → (∀ a ∈ p, TransGen (Enters status) a t) →
    ∀ s, Account status s → Succeeded status s → ∃ ret s',
      inTurn (depends workspace status fuel (t :: p)) cs s = some (ret, s') ∧
        SettledCalls status t cs s ret s'

/-- The calls for `t`, from any of them on, if every task it enters settles. -/
theorem calls_settle {t : Ptr tasks} (below : ∀ c, Enters status t c → Settles workspace status c)
    (cs : List (Ptr tasks)) (pre : List (Ptr tasks)) (split : calls t = pre ++ cs)
    (clean : ∀ d ∈ pre, d ≠ t ∧ Clean status d) : ∃ N, CallsSettle workspace status t cs N := by
  induction cs generalizing pre with
  | nil =>
    refine ⟨0, fun fuel _ p _ _ s h good => ⟨0, s, rfl, h, ?_, fun _ => ⟨good, ?_⟩, ?_⟩⟩
    · exact ⟨[], (List.append_nil _).symm, fun c hc => absurd hc List.not_mem_nil⟩
    · exact fun b hb => absurd hb List.not_mem_nil
    · exact fun h => absurd rfl h
  | cons b cs ih =>
    have needs : Needs t b := mem_calls.mp (split ▸ List.mem_append_right pre List.mem_cons_self)
    rcases eq_or_ne b t with rfl | other
    · -- the ancestor walk stops the call
      refine ⟨1, fun fuel hf p _ _ s h good => ?_⟩
      obtain ⟨k, rfl⟩ := Nat.exists_eq_add_of_le' hf
      refine ⟨1, s, inTurn_cons_fail (depends_self k p b s) one_ne_zero, h, ?_, fun h => ?_, ?_⟩
      · exact ⟨[], (List.append_nil _).symm, fun c hc => absurd hc List.not_mem_nil⟩
      · exact absurd h one_ne_zero
      · exact fun _ => ⟨b, .refl, .inl needs⟩
    · have enters : Enters status t b := ⟨other, pre, cs, split, clean⟩
      obtain ⟨N, settle⟩ := below b enters
      -- beyond a call that is not clean, no fuel is asked for
      obtain ⟨N', rest⟩ : ∃ N', Clean status b → CallsSettle workspace status t cs N' := by
        rcases Classical.em (Clean status b) with cleanB | dirty
        · obtain ⟨N', rest⟩ := ih (pre ++ [b]) (by rw [split, List.append_assoc]; rfl)
            fun d hd => (List.mem_append.mp hd).elim (clean d) fun last => by
              rw [List.mem_singleton.mp last]
              exact ⟨other, cleanB⟩
          exact ⟨N', fun _ => rest⟩
        · exact ⟨0, fun cleanB => absurd cleanB dirty⟩
      refine ⟨max N N', fun fuel hf p nodup above s h good => ?_⟩
      have aboveB : ∀ a ∈ t :: p, TransGen (Enters status) a b := fun a ha => by
        rcases List.mem_cons.mp ha with rfl | ha
        · exact .single enters
        · exact (above a ha).tail enters
      obtain ⟨ret, s₁, eq, settled⟩ :=
        settle fuel (le_trans (le_max_left _ _) hf) (t :: p) nodup aboveB s h good
      obtain ⟨new, ran, reach⟩ := settled.grows
      have reach' : ∀ c ∈ new, ReflTransGen Needs t c := fun c hc => .head needs (reach c hc)
      rcases eq_or_ne ret 0 with rfl | fails
      · obtain ⟨good₁, cleanB, all⟩ := settled.ok rfl
        obtain ⟨ret, s₂, eq₂, settled₂⟩ :=
          rest cleanB fuel (le_trans (le_max_right _ _) hf) p nodup above s₁ settled.account good₁
        obtain ⟨new₂, ran₂, reach₂⟩ := settled₂.grows
        refine ⟨ret, s₂, by rw [inTurn_cons_zero eq, eq₂], settled₂.account, ?_, fun zero => ?_,
          settled₂.blocked⟩
        · refine ⟨new ++ new₂, by rw [ran₂, ran, List.append_assoc], fun c hc => ?_⟩
          exact (List.mem_append.mp hc).elim (reach' c) (reach₂ c)
        · obtain ⟨good₂, others⟩ := settled₂.ok zero
          refine ⟨good₂, fun c hc => ?_⟩
          rcases List.mem_cons.mp hc with rfl | hc
          · exact ⟨other, cleanB, fun d hd => ran₂ ▸ List.mem_append_left new₂ (all d hd)⟩
          · exact others c hc
      · refine ⟨ret, s₁, inTurn_cons_fail eq fails, settled.account, ⟨new, ran, reach'⟩,
          fun zero => absurd zero fails, fun _ => ?_⟩
        obtain ⟨c, hc, why⟩ := settled.blocked fails
        exact ⟨c, .head needs hc, why⟩

/-- **The walk ends**, where no cycle can be entered, and leaves what `Settled` says. -/
theorem settles {t : Ptr tasks} (walk : Acc (flip (Enters status)) t) :
    Settles workspace status t := by
  induction walk with
  | intro t below ih =>
    obtain ⟨N, calls⟩ := calls_settle ih (calls t) [] rfl (fun d hd => absurd hd List.not_mem_nil)
    refine ⟨N + 1, fun fuel hf p nodup above s h good => ?_⟩
    obtain ⟨k, rfl⟩ := Nat.exists_eq_add_of_le' (le_trans (Nat.le_add_left 1 N) hf)
    have new : t ∉ p := fun mem =>
      Descent.not_cycle_of_acc (Acc.intro t below) .refl (above t mem)
    have head : p.head? ≠ some t := fun eq => new (List.mem_of_head? eq)
    have nodup' : (t :: p).Nodup := List.nodup_cons.mpr ⟨new, nodup⟩
    obtain ⟨ret, s₁, eq, settled⟩ := calls k (Nat.le_of_succ_le_succ hf) p nodup' above
      { s with trees := s.trees ++ [t :: p] } (h.enter nodup') good
    rw [depends_succ, if_neg head, eq, Option.bind_some]
    rcases eq_or_ne ret 0 with rfl | fails
    · obtain ⟨good₁, others⟩ := settled.ok rfl
      obtain ⟨new₁, ran₁, reach₁⟩ := settled.grows
      obtain ⟨account, ⟨new₂, ran₂, own⟩, mem, zero⟩ := account_exec workspace
        settled.account good₁ fun d hd => (others d (mem_calls.mpr hd)).2.2 d .refl
      refine ⟨(exec workspace status t s₁).1, (exec workspace status t s₁).2,
        if_neg (not_not.mpr rfl), account, ?_, fun ok => ?_, fun fails => ?_⟩
      · refine ⟨new₁ ++ new₂, by rw [ran₂, ran₁, List.append_assoc]; rfl, fun c hc => ?_⟩
        rcases List.mem_append.mp hc with old | last
        · exact reach₁ c old
        · rw [own c last]
      · have statusZero := zero.mp ok
        refine ⟨fun c hc => ?_, ⟨fun c hc => (others c (mem_calls.mpr hc)).1,
          fun c hc => (others c (mem_calls.mpr hc)).2.1, statusZero⟩, fun c hc => ?_⟩
        · rw [ran₂] at hc
          rcases List.mem_append.mp hc with old | last
          · exact good₁ c old
          · rw [own c last]
            exact statusZero
        · rcases hc.cases_head with rfl | ⟨b, step, hc⟩
          · exact mem
          · rw [ran₂]
            exact List.mem_append_left _ ((others b (mem_calls.mpr step)).2.2 c hc)
      · exact ⟨t, .refl, .inr ⟨mem, fun statusZero => fails (zero.mpr statusZero)⟩⟩
    · exact ⟨ret, s₁, if_pos fails, settled.account, settled.grows,
        fun zero => absurd zero fails, settled.blocked⟩

/-! ## Acyclic lists -/

/-- `bld__make` starts with the first task that carries the label. -/
theorem make_first {name : Str} {t : Ptr tasks} (label : (tasks.get t).label = name)
    (first : ∀ u < t, (tasks.get u).label ≠ name) (fuel : ℕ) :
    make workspace status fuel name = depends workspace status fuel [] t (init tasks) := by
  have found :
      (List.finRange tasks.length).find? (fun t => (tasks.get t).label = name) = some t := by
    rw [List.find?_eq_some_iff_getElem]
    refine ⟨decide_eq_true label, t, by rw [List.length_finRange]; exact t.isLt,
      List.getElem_finRange _, fun j hj => ?_⟩
    rw [List.getElem_finRange]
    exact (Bool.not_eq_true' _).mpr (decide_eq_false (first ⟨j, _⟩ hj))
  rw [make, found]

/-- **Dependencies run first.** For an acyclic list and a label that exists, `bld__make` returns;
it has spawned tasks reachable from the first task with that label, each once and each after all
that it depends on had succeeded. If every command succeeded it returns zero and has spawned all
that is reachable, and a command that failed is the last and makes the result nonzero. -/
theorem make_runs_in_order (tasks : List Task) (workspace : Str) (status : Ptr tasks → ℤ)
    (acyclic : ∀ c : Ptr tasks, ¬ TransGen Needs c c) (name : Str) (t : Ptr tasks)
    (label : tasks[t].label = name) (first : ∀ u < t, tasks[u].label ≠ name) :
    ∃ N, ∀ fuel ≥ N, ∃ ret s, make workspace status fuel name = some (ret, s) ∧
      (∀ c ∈ s.ran, ReflTransGen Needs t c) ∧
      s.ran.Nodup ∧
      (∀ l c r, s.ran = l ++ c :: r → ∀ d, Needs c d → d ∈ l ∧ status d = 0) ∧
      ((∀ c ∈ s.ran, status c = 0) → ret = 0 ∧ ∀ c, ReflTransGen Needs t c → c ∈ s.ran) ∧
      (∀ l c r, s.ran = l ++ c :: r → status c ≠ 0 → r = [] ∧ ret ≠ 0) := by
  have walk : Acc (flip (Enters status)) t := Descent.acc_of_not_cycle fun c _ cycle =>
    acyclic c (TransGen.mono (fun _ _ => Enters.needs) c c cycle)
  obtain ⟨N, settle⟩ : Settles workspace status t := settles walk
  refine ⟨N, fun fuel hf => ?_⟩
  obtain ⟨ret, s, eq, settled⟩ := settle fuel hf [] List.nodup_nil
    (fun a ha => absurd ha List.not_mem_nil) (init tasks) account_init
    (fun c hc => absurd hc List.not_mem_nil)
  obtain ⟨new, ran, reach⟩ := settled.grows
  refine ⟨ret, s, (make_first label first fuel).trans eq, fun c hc => ?_, settled.account.once,
    fun l c r split d needs => ?_, fun good => ?_, fun l c r split fails => ?_⟩
  · exact reach c (by rw [ran] at hc; exact hc)
  · have mem := settled.account.after l c r split d needs
    obtain ⟨l₁, l₂, rfl⟩ := List.append_of_mem mem
    refine ⟨mem, settled.account.success l₁ d (l₂ ++ c :: r) ?_ ?_⟩
    · rw [split, List.append_assoc]; rfl
    · exact List.append_ne_nil_of_right_ne_nil l₂ (List.cons_ne_nil c r)
  · have zero : ret = 0 := by
      by_contra fails
      obtain ⟨c, _, self | ⟨mem, bad⟩⟩ := settled.blocked fails
      · exact acyclic c (.single self)
      · exact bad (good c mem)
    exact ⟨zero, (settled.ok zero).2.2⟩
  · refine ⟨?_, fun zero => ?_⟩
    · by_contra more
      exact fails (settled.account.success l c r split more)
    · exact fails ((settled.ok zero).1 c (split ▸ List.mem_append_right l List.mem_cons_self))

instance (t c : Ptr tasks) : Decidable (Needs t c) :=
  inferInstanceAs (Decidable ((tasks.get c).label ∈ (tasks.get t).labels))

/-- A task that only depends on others. -/
def Task.needing (label : String) (dependsOn : List String) : Task where
  label := ascii label
  command := ascii label
  cwd := []
  dependsOn := dependsOn.map ascii
  args := []

/-- Two tasks that share a dependency, and one that depends on both. -/
def diamond : List Task :=
  [.needing "all" ["left", "right"], .needing "left" ["base"], .needing "right" ["base"],
    .needing "base" []]

/-- The diamond runs whole. -/
theorem make_runs_in_order_diamond :
    ∃ N, ∀ fuel ≥ N, ∃ ret s,
      make [] (fun _ : Ptr diamond => 0) fuel (ascii "all") = some (ret, s) ∧ ret = 0 ∧
      ∀ c, ReflTransGen Needs (⟨0, by decide⟩ : Ptr diamond) c → c ∈ s.ran := by
  have down : ∀ t c : Ptr diamond, Needs t c → t < c := by decide
  have acyclic : ∀ c : Ptr diamond, ¬ TransGen Needs c c := fun c cycle => by
    have later : TransGen (· < ·) c c := TransGen.mono down c c cycle
    rw [transGen_eq_self] at later
    exact lt_irrefl c later
  obtain ⟨N, run⟩ := make_runs_in_order diamond [] (fun _ => 0) acyclic (ascii "all")
    ⟨0, by decide⟩ (by decide) (fun u hu => absurd hu (Nat.not_lt_zero u))
  refine ⟨N, fun fuel hf => ?_⟩
  obtain ⟨ret, s, eq, _, _, _, all, _⟩ := run fuel hf
  exact ⟨ret, s, eq, all fun _ _ => rfl⟩

end Teres.Tools.Bld
