import Mathlib.Order.WellFounded
import Teres.Laws.Tools.BldCycles
import Teres.Laws.Tools.Handed

/-!
# Failures that are reported

`bld__make` tells `main` whether the build failed, and `main` returns zero all the same. So the exit
status is right only where there is nothing to report: where the program ends before the build,
where the build does not end, and where the tasks.json is sound and nothing in the build can fail
(`reported_iff`).
-/

namespace Teres.Tools.Build

open Relation
open Json (Members Value Lexicon)
open Tasks (Platform Readable TasksJson gatheredTasks taskObjects labelOf dependsOnOf)
open Bld (Str Ptr State Needs Clean Enters Endless Settled Settles Ready Account depends)

/-! ## Runs that return -/

section Runs

variable {tasks : List Bld.Task} {workspace : Str} {status : Ptr tasks → ℤ}

/-- More fuel makes no difference to a call that returns. -/
theorem depends_succ_of_some (fuel : ℕ) : ∀ {p : List (Ptr tasks)} {t : Ptr tasks} {s : State tasks}
    {r : ℤ × State tasks}, depends workspace status fuel p t s = some r →
      depends workspace status (fuel + 1) p t s = some r := by
  induction fuel with
  | zero => exact fun run => nomatch run
  | succ fuel ih =>
    intro p t s r run
    rw [Bld.depends_succ] at run ⊢
    by_cases head : p.head? = some t
    · rw [if_pos head] at run ⊢
      exact run
    · rw [if_neg head] at run ⊢
      obtain ⟨r', calls, rest⟩ := Option.bind_eq_some_iff.mp run
      rw [InTurn.inTurn_mono (fun _ _ _ => ih) calls]
      exact rest

theorem depends_mono {fuel fuel' : ℕ} (le : fuel ≤ fuel') {p : List (Ptr tasks)} {t : Ptr tasks}
    {s : State tasks} {r : ℤ × State tasks} (run : depends workspace status fuel p t s = some r) :
    depends workspace status fuel' p t s = some r := by
  induction le with
  | refl => exact run
  | step _ ih => exact depends_succ_of_some _ ih

/-- What any run that returns leaves. -/
theorem settled_of_run {t : Ptr tasks} {fuel : ℕ} {ret : ℤ} {s : State tasks}
    (run : depends workspace status fuel [] t (Bld.init tasks) = some (ret, s)) :
    ¬Endless status t ∧ Settled status t (Bld.init tasks) ret s := by
  have free : ¬Endless status t := by
    intro endless
    have stuck := Bld.endless workspace fuel endless (p := []) (fun h => nomatch h) Bld.ready_init
    cases run.symm.trans stuck
  obtain ⟨N, settle⟩ := Bld.run_settled workspace free
  obtain ⟨ret', s', run', settled⟩ := settle (max N fuel) (le_max_left N fuel)
  cases run'.symm.trans (depends_mono (le_max_right N fuel) run)
  exact ⟨free, settled⟩

/-- The first task with a label. -/
def First (tasks : List Bld.Task) (name : Str) (t : Ptr tasks) : Prop :=
  (tasks.get t).label = name ∧ ∀ u < t, (tasks.get u).label ≠ name

theorem First.unique {tasks : List Bld.Task} {name : Str} {t u : Ptr tasks}
    (ht : First tasks name t) (hu : First tasks name u) : t = u := by
  rcases lt_trichotomy t u with before | same | behind
  · exact absurd ht.1 (hu.2 t before)
  · exact same
  · exact absurd hu.1 (ht.2 u behind)

theorem first_or_none (tasks : List Bld.Task) (name : Str) :
    (∃ t, First tasks name t) ∨ ∀ t : Ptr tasks, (tasks.get t).label ≠ name := by
  by_cases some : ∃ t : Ptr tasks, (tasks.get t).label = name
  · obtain ⟨t, label, least⟩ := WellFounded.has_min (r := (· < · : Ptr tasks → Ptr tasks → Prop))
      wellFounded_lt {t | (tasks.get t).label = name} some
    exact .inl ⟨t, label, fun u lt same => least u same lt⟩
  · exact .inr (not_exists.mp some)

end Runs

/-! ## Reports -/

/-- A task that a task of the document depends on. -/
def Depends (root : Members) (t d : Members) : Prop :=
  d ∈ taskObjects root ∧ labelOf d.entries ∈ dependsOnOf Members.entries t.entries

/-- **A sound request**: the requested task exists, and of every task that has to run for it every
label names a task, and none depends on itself. -/
def Sound (root : Members) (name : Str) : Prop :=
  ∃ t, (taskObjects root).find? (fun t => labelOf t.entries = name) = some t ∧
    ∀ c, ReflTransGen (Depends root) t c → ¬TransGen (Depends root) c c ∧
      ∀ l ∈ dependsOnOf Members.entries c.entries, ∃ d ∈ taskObjects root, labelOf d.entries = l

/-- No cycle of dependencies is met among tasks that are gathered. -/
def Acyclic (tasks : List Bld.Task) (name : Str) : Prop :=
  ∀ t, First tasks name t → ∀ c, ReflTransGen Needs t c → ¬TransGen Needs c c

/-- **What an exit status of zero stands for**: the request is sound, the build meets no cycle, and
every command that was spawned returned zero. -/
def Reported (root : Members) (status : ℕ → ℤ) (name : Str) (ran : List ℕ) : Prop :=
  Sound root name ∧ (∀ tasks, gatheredTasks root = some tasks → Acyclic tasks name) ∧
    ∀ i ∈ ran, status i = 0

/-- **A build with nothing to report**, if the document's strings can all be gathered: it does not
end, or the request is sound and every task that the build needs has a command that returns zero and
does not need itself. -/
def Unfailing (root : Members) (status : ℕ → ℤ) (name : Str) : Prop :=
  ∀ tasks, gatheredTasks root = some tasks →
    (∃ t, First tasks name t ∧ Endless (fun t : Ptr tasks => status t) t) ∨
      Sound root name ∧ ∀ t, First tasks name t → ∀ c, ReflTransGen Needs t c →
        status c = 0 ∧ ¬TransGen Needs c c

section Main

variable {platform : Platform} {fuel : ℕ} {memory : Json.Tree} {status : ℕ → ℤ}
  {text : List UInt8} {workspace name : Str} {tasks : List Bld.Task}

/-- The requested task is built, and the exit status is zero whatever comes of it. -/
theorem main_first (found : gathered platform fuel memory text = .ok tasks) {t : Ptr tasks}
    (first : First tasks name t) (fuel' : ℕ) :
    main platform fuel fuel' memory status text workspace name =
      (depends workspace (fun t : Ptr tasks => status t) fuel' [] t (Bld.init tasks)).elim .fuel
        fun r => .exit 0 (r.2.ran.map Fin.val) := by
  unfold main
  rw [found]
  dsimp only
  rw [Bld.make_first first.1 first.2]
  cases depends workspace (fun t : Ptr tasks => status t) fuel' [] t (Bld.init tasks) with
  | none => rfl
  | some r => rfl

/-- Nobody is told that there is no such task. -/
theorem main_missing (found : gathered platform fuel memory text = .ok tasks)
    (none : ∀ t : Ptr tasks, (tasks.get t).label ≠ name) (fuel' : ℕ) :
    main platform fuel fuel' memory status text workspace name = .exit 0 [] := by
  have missing :
      (List.finRange tasks.length).find? (fun t => (tasks.get t).label = name) = .none := by
    rw [List.find?_eq_none]
    exact fun t _ => by simpa using none t
  unfold main
  rw [found]
  dsimp only
  rw [Bld.make, missing]
  rfl

/-- **Where no cycle is met and every command returns zero**, nothing that the task needs fails. -/
theorem clean_of_zero {t : Ptr tasks} {ret : ℤ} {s : State tasks}
    (settled : Settled (fun t : Ptr tasks => status t) t (Bld.init tasks) ret s)
    (acyclic : ∀ c, ReflTransGen Needs t c → ¬TransGen Needs c c)
    (zeros : ∀ i ∈ s.ran.map Fin.val, status i = 0) :
    ∀ c, ReflTransGen Needs t c → status c = 0 ∧ ¬TransGen Needs c c := by
  have good : ∀ c ∈ s.ran, status c = 0 := fun c mem => zeros c (List.mem_map_of_mem mem)
  have zero : ret = 0 := by
    by_contra fails
    obtain ⟨c, reach, self | ⟨mem, bad⟩⟩ := settled.blocked fails
    · exact acyclic c reach (.single self)
    · exact bad (good c mem)
  exact fun c reach => ⟨good c ((settled.ok zero).2.2 c reach), acyclic c reach⟩

/-- What is spawned is needed. -/
theorem zero_of_clean {t : Ptr tasks} {ret : ℤ} {s : State tasks}
    (settled : Settled (fun t : Ptr tasks => status t) t (Bld.init tasks) ret s)
    (clean : ∀ c, ReflTransGen Needs t c → status c = 0) :
    ∀ i ∈ s.ran.map Fin.val, status i = 0 := by
  intro i mem
  obtain ⟨c, ran, rfl⟩ := List.mem_map.mp mem
  obtain ⟨new, grown, reach⟩ := settled.grows
  rw [grown] at ran
  exact clean c (reach c ran)

/-- **What an exit status of zero says of the tasks**: whatever else it is to stand for, no cycle is
met and every command returns zero just where the build does not end, or nothing that it needs
fails. -/
theorem main_zero_iff (found : gathered platform fuel memory text = .ok tasks) (also : Prop) :
    (∀ fuel' ran, main platform fuel fuel' memory status text workspace name = .exit 0 ran →
      also ∧ Acyclic tasks name ∧ ∀ i ∈ ran, status i = 0) ↔
    (∃ t, First tasks name t ∧ Endless (fun t : Ptr tasks => status t) t) ∨
      also ∧ ∀ t, First tasks name t → ∀ c, ReflTransGen Needs t c →
        status c = 0 ∧ ¬TransGen Needs c c := by
  constructor
  · intro reported
    rcases first_or_none tasks name with ⟨t, first⟩ | none
    · refine or_iff_not_imp_left.mpr fun ends => ?_
      obtain ⟨N, settle⟩ := Bld.run_settled workspace fun endless => ends ⟨t, first, endless⟩
      obtain ⟨ret, s, run, settled⟩ := settle N (le_refl N)
      have exits : main platform fuel N memory status text workspace name =
          .exit 0 (s.ran.map Fin.val) := by
        rw [main_first found first, run]
        rfl
      obtain ⟨holds, acyclic, zeros⟩ := reported N _ exits
      refine ⟨holds, fun t' first' => ?_⟩
      cases first.unique first'
      exact clean_of_zero settled (acyclic t first) zeros
    · obtain ⟨holds, _⟩ := reported 0 _ (main_missing found none 0)
      exact .inr ⟨holds, fun t first => absurd first.1 (none t)⟩
  · intro unfailing fuel' ran exits
    rcases first_or_none tasks name with ⟨t, first⟩ | none
    · rw [main_first found first] at exits
      cases run : depends workspace (fun t : Ptr tasks => status t) fuel' [] t (Bld.init tasks) with
      | none =>
        rw [run] at exits
        cases exits
      | some result =>
        obtain ⟨ret, s⟩ := result
        rw [run] at exits
        obtain ⟨free, settled⟩ := settled_of_run run
        cases exits
        rcases unfailing with ⟨t', first', endless⟩ | ⟨holds, clean⟩
        · cases first.unique first'
          exact absurd endless free
        · refine ⟨holds, fun t' first' => ?_, ?_⟩
          · exact fun c reach => (clean t' first' c reach).2
          · exact zero_of_clean settled fun c reach => (clean t first c reach).1
    · rw [main_missing found none] at exits
      cases exits
      rcases unfailing with ⟨t, first, _⟩ | ⟨holds, _⟩
      · exact absurd first.1 (none t)
      · exact ⟨holds, fun t first => absurd first.1 (none t), fun _ mem => nomatch mem⟩

end Main

/-- **Failures are reported** if and only if there is none to report: the program ends before the
build, or the build does not end, or the request is sound and nothing that the build needs fails. -/
theorem reported_iff {lexicon : Lexicon} {space : List UInt8} {root : Members}
    (readable : Readable lexicon space root) (typed : TasksJson root)
    (sized : ∀ its ∈ Tasks.tasksItems Members.seen root, ∀ item ∈ its, item.text.length < item.size)
    (rest : List UInt8) (memory : Json.Tree) {fuel : ℕ} (enough : root.text.length + 2 ≤ fuel)
    (status : ℕ → ℤ) (workspace name : Str) :
    (∀ fuel' ran, main .linux fuel fuel' memory status
      (space ++ ((Value.node true root).text ++ rest)) workspace name = .exit 0 ran →
        Reported root status name ran) ↔ Unfailing root status name := by
  have found := Tasks.gathered_document readable.blank readable.wf readable.deep readable.noNul
    typed sized rest memory enough
  unfold Reported Unfailing
  cases gathers : gatheredTasks root with
  | none =>
    rw [gathers] at found
    refine iff_of_true (fun fuel' ran exits => ?_) fun tasks some => (nomatch some)
    unfold main at exits
    rw [found] at exits
    cases exits
  | some tasks =>
    rw [gathers] at found
    simpa only [Option.some.injEq, forall_eq'] using main_zero_iff found (Sound root name)

/-! ## A file of one task -/

/-- The inside of `{"tasks":[{"label":"x","command":"y","dependsOn":[…]} ] }`. -/
def needing (l : List Str) (post : List UInt8) : Members :=
  Tasks.file (.more ⟨[], some ⟨Bld.ascii "label", [], []⟩⟩ (.string (Bld.ascii "x")) []
    (.more ⟨[], some ⟨Bld.ascii "command", [], []⟩⟩ (.string (Bld.ascii "y")) []
      (.last ⟨[], some ⟨Bld.ascii "dependsOn", [], []⟩⟩ (.node false (Tasks.strings l)) post)))

theorem needing_readable {l : List Str} {post : List UInt8} (quoted : ∀ s ∈ l, Json.Quoted s)
    (blank : Json.Blank post) (deep : (Value.node true (needing l post)).depth < Json.maxDepth)
    (noNul : 0 ∉ (Value.node true (needing l post)).text) :
    Readable Lexicon.full [] (needing l post) := by
  have empty : Json.Blank [] := fun _ h => nomatch h
  have label : Json.Quoted (Bld.ascii "label") := by decide
  have command : Json.Quoted (Bld.ascii "command") := by decide +kernel
  have dependsOn : Json.Quoted (Bld.ascii "dependsOn") := by decide +kernel
  have x : Json.Quoted (Bld.ascii "x") := by decide
  have y : Json.Quoted (Bld.ascii "y") := by decide
  refine ⟨empty, Tasks.file_wellFormed ⟨⟨empty, rfl, label, empty, empty⟩, (nomatch ·), x, empty,
    ⟨empty, rfl, command, empty, empty⟩, (nomatch ·), y, empty, ?_⟩, deep, noNul⟩
  exact ⟨⟨empty, rfl, dependsOn, empty, empty⟩, (nomatch ·), Tasks.strings_wellFormed quoted, blank⟩

theorem needing_typed (l : List Str) (post : List UInt8) : TasksJson (needing l post) := by
  have texts : Tasks.IsStrings (.node false (Tasks.strings l)) := by
    refine ⟨_, rfl, fun e mem => ?_⟩
    rw [Tasks.strings_entries] at mem
    obtain ⟨s, _, rfl⟩ := List.mem_map.1 mem
    exact ⟨s, rfl⟩
  refine Tasks.file_typed ⟨?_, fun e mem => ?_⟩
  · change [Bld.ascii "label", Bld.ascii "command", Bld.ascii "dependsOn"].Nodup
    decide
  · change e ∈ [(Bld.ascii "label", Value.string (Bld.ascii "x")),
      (Bld.ascii "command", .string (Bld.ascii "y")),
      (Bld.ascii "dependsOn", .node false (Tasks.strings l))] at mem
    have string (name s : Str) (other : name ≠ Bld.ascii "args") :
        Tasks.TaskEntry (name, .string s) :=
      ⟨fun _ => ⟨s, rfl⟩, fun _ => ⟨s, rfl⟩, fun args => absurd args other, fun _ => .inl ⟨s, rfl⟩,
        fun _ _ h => (nomatch h), fun _ _ h => (nomatch h)⟩
    rcases List.mem_cons.1 mem with rfl | mem
    · exact string _ _ (by decide)
    rcases List.mem_cons.1 mem with rfl | mem
    · exact string _ _ (by decide)
    obtain rfl := List.mem_singleton.1 mem
    have other : Bld.ascii "dependsOn" ≠ Bld.ascii "label" ∧
        Bld.ascii "dependsOn" ≠ Bld.ascii "command" := by decide
    exact ⟨fun label => absurd label other.1, fun command => absurd command other.2,
      fun _ => texts, fun _ => .inr texts, fun _ _ h => (nomatch h), fun _ _ h => (nomatch h)⟩

/-- A label that names no task, in an array that the visit loses. -/
theorem reported_iff_lost :
    (∀ fuel' ran, main .linux 99 fuel' Json.zeroed (fun _ => 0)
      ([] ++ ((Value.node true (needing [Bld.ascii "nope"] [])).text ++ [])) []
        (Bld.ascii "x") = .exit 0 ran →
      Reported (needing [Bld.ascii "nope"] []) (fun _ => 0) (Bld.ascii "x") ran) ↔
    Unfailing (needing [Bld.ascii "nope"] []) (fun _ => 0) (Bld.ascii "x") :=
  have empty : Json.Blank [] := fun _ h => nomatch h
  reported_iff (needing_readable (by decide) empty (by decide) (by decide)) (needing_typed _ _)
    (by decide) [] Json.zeroed (by decide) _ _ _

/-- The command of the requested task fails, and the program exits with zero. -/
theorem failure_swallowed :
    main .linux 99 9 Json.zeroed (fun _ => 1) (Value.node true (needing [] [0x20])).text []
        (Bld.ascii "x") = .exit 0 [0] ∧
      ¬∀ (lexicon : Lexicon) (space : List UInt8) (root : Members), Readable lexicon space root →
        TasksJson root → (∀ its ∈ Tasks.tasksItems Members.seen root, ∀ item ∈ its,
          item.text.length < item.size) → ∀ (rest : List UInt8) (memory : Json.Tree)
        (fuel : ℕ), root.text.length + 2 ≤ fuel → ∀ (status : ℕ → ℤ) (workspace name : Str)
        (fuel' : ℕ) (ran : List ℕ), main .linux fuel fuel' memory status
          (space ++ ((Value.node true root).text ++ rest)) workspace name = .exit 0 ran →
            Reported root status name ran := by
  have exits : main .linux 99 9 Json.zeroed (fun _ => 1)
      (Value.node true (needing [] [0x20])).text [] (Bld.ascii "x") = .exit 0 [0] := by
    decide +kernel
  refine ⟨exits, fun all => ?_⟩
  rw [← List.append_nil (Value.node true (needing [] [0x20])).text] at exits
  obtain ⟨_, _, zeros⟩ := all Lexicon.full [] _
    (needing_readable (by decide) (by decide) (by decide) (by decide)) (needing_typed _ _)
    (by decide) [] _ 99 (by decide) _ _ _ _ _ exits
  exact absurd (zeros 0 List.mem_cons_self) (by decide)

end Teres.Tools.Build
