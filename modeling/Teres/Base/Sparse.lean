import Mathlib.Data.List.Induction
import Mathlib.Data.List.Nodup
import Mathlib.Data.List.Pairwise
import Teres.Base.Named

/-!
# Sparse memories

Words at increasing places are a memory: the places up to the last of them, with a default where no
word is. A word behind the last one adds the gap and itself (`memory_concat`), and leaving words out
is not seen exactly when they are the default and none of them is the last (`memory_filter_iff`).
-/

namespace Teres.Sparse

variable {α : Type*} {zero w : α} {l : List (ℕ × α)} {k : ℕ}

/-- Each word stands behind the one before. -/
def Increasing (l : List (ℕ × α)) : Prop := (l.map Prod.fst).Pairwise (· < ·)

/-- The place behind the last word. -/
def size (l : List (ℕ × α)) : ℕ := l.getLast?.elim 0 fun p => p.1 + 1

/-- The memory that the words are. -/
def memory (zero : α) (l : List (ℕ × α)) : List α :=
  (List.range (size l)).map fun k => (l.lookup k).getD zero

@[simp] theorem size_concat : size (l ++ [(k, w)]) = k + 1 := by simp [size]

@[simp] theorem memory_length : (memory zero l).length = size l := by simp [memory]

theorem Increasing.nodup (inc : Increasing l) : (l.map Prod.fst).Nodup :=
  inc.imp fun less => Nat.ne_of_lt less

theorem Increasing.concat (inc : Increasing (l ++ [(k, w)])) :
    Increasing l ∧ ∀ p ∈ l, p.1 < k := by
  unfold Increasing at inc
  rw [List.map_append, List.pairwise_append] at inc
  exact ⟨inc.1, fun p mem => inc.2.2 _ (List.mem_map_of_mem mem) k List.mem_cons_self⟩

/-- No word stands behind the last. -/
theorem Increasing.lt_size (inc : Increasing l) {p : ℕ × α} (mem : p ∈ l) : p.1 < size l := by
  cases l using List.reverseRecOn with
  | nil => exact absurd mem List.not_mem_nil
  | append_singleton l last =>
    rw [size_concat]
    rcases List.mem_append.1 mem with mem | mem
    · exact Nat.lt_succ_of_lt (inc.concat.2 p mem)
    · rw [List.mem_singleton.1 mem]
      exact Nat.lt_succ_self _

/-- Words that all stand in front of a place end in front of it. -/
theorem size_le (before : ∀ p ∈ l, p.1 < k) : size l ≤ k := by
  cases l using List.reverseRecOn with
  | nil => exact Nat.zero_le k
  | append_singleton l last =>
    rw [size_concat]
    exact before last (by simp)

theorem Increasing.size_le (inc : Increasing (l ++ [(k, w)])) : size l ≤ k :=
  Sparse.size_le inc.concat.2

theorem lookup_behind (inc : Increasing l) (behind : size l ≤ k) : l.lookup k = none := by
  rw [List.lookup_eq_none_iff]
  intro p mem
  have less := inc.lt_size mem
  rw [bne_iff_ne]
  exact Nat.ne_of_gt (Nat.lt_of_lt_of_le less behind)

/-- The last word is found behind all others, and is in no other place. -/
theorem lookup_concat (inc : Increasing (l ++ [(k, w)])) (j : ℕ) :
    (l ++ [(k, w)]).lookup j = if j = k then some w else l.lookup j := by
  rw [List.lookup_append]
  split_ifs with last
  · subst last
    rw [lookup_behind inc.concat.1 inc.size_le]
    simp
  · have other : [(k, w)].lookup j = none := by simp [last]
    rw [other, Option.or_none]

/-- **A word adds the gap in front of it and itself.** -/
theorem memory_concat (inc : Increasing (l ++ [(k, w)])) :
    memory zero (l ++ [(k, w)]) = memory zero l ++ List.replicate (k - size l) zero ++ [w] := by
  have behind := inc.size_le
  have parts : List.range (k + 1) =
      List.range (size l) ++ (List.range (k - size l)).map (size l + ·) ++ [k] := by
    rw [List.range_succ, ← List.range_add, Nat.add_sub_cancel' behind]
  have value (j : ℕ) : ((l ++ [(k, w)]).lookup j).getD zero =
      if j = k then w else (l.lookup j).getD zero := by
    rw [lookup_concat inc]
    split_ifs <;> rfl
  rw [memory, size_concat, parts]
  simp only [List.map_append, value, List.map_map, List.map_singleton, if_true]
  congr 2
  · refine List.map_congr_left fun j mem => ?_
    have inside := List.mem_range.1 mem
    rw [if_neg (by omega)]
  · rw [List.eq_replicate_iff]
    refine ⟨by simp, fun x mem => ?_⟩
    obtain ⟨i, inside, rfl⟩ := List.mem_map.1 mem
    have past : size l + i < k := by
      have := List.mem_range.1 inside
      omega
    rw [Function.comp_apply, if_neg (Nat.ne_of_lt past),
      lookup_behind inc.concat.1 (Nat.le_add_right _ _)]
    rfl

/-- What a memory holds at a place. -/
theorem memory_get? (k : ℕ) : (memory zero l)[k]? =
    if k < size l then some ((l.lookup k).getD zero) else none := by
  unfold memory
  split_ifs with inside
  · simp [inside]
  · simp [inside]

/-! ## Words that are left out -/

variable {ι : Type*} {f : ι → ℕ × α} {is : List ι}

theorem Increasing.filter (inc : Increasing (is.map f)) (q : ι → Bool) :
    Increasing ((is.filter q).map f) :=
  List.Pairwise.sublist ((List.filter_sublist.map f).map Prod.fst) inc

/-- A word is found at its place. -/
theorem lookup_map (inc : Increasing (is.map f)) {i : ι} (mem : i ∈ is) :
    (is.map f).lookup (f i).1 = some (f i).2 :=
  (Named.lookup_eq_some inc.nodup).2 (List.mem_map_of_mem mem)

/-- What is left out is not found. -/
theorem lookup_filter (inc : Increasing (is.map f)) (q : ι → Bool) {i : ι} (mem : i ∈ is) :
    ((is.filter q).map f).lookup (f i).1 = if q i then some (f i).2 else none := by
  split_ifs with kept
  · exact lookup_map (inc.filter q) (List.mem_filter.2 ⟨mem, kept⟩)
  · rw [Option.eq_none_iff_forall_ne_some]
    intro v found
    rw [Named.lookup_eq_some (inc.filter q).nodup, List.mem_map] at found
    obtain ⟨j, stays, eq⟩ := found
    obtain ⟨mem', kept'⟩ := List.mem_filter.1 stays
    have distinct := inc.nodup
    rw [List.map_map] at distinct
    have place : (f j).1 = (f i).1 := by rw [eq]
    have same : j = i := List.inj_on_of_nodup_map distinct mem' mem place
    exact kept (same ▸ kept')

/-- The memory ends where it did when the last word is kept, and only then. -/
theorem size_filter_iff (inc : Increasing (is.map f)) (q : ι → Bool) :
    size ((is.filter q).map f) = size (is.map f) ↔ ∀ i, is.getLast? = some i → q i = true := by
  cases is using List.reverseRecOn with
  | nil => simp
  | append_singleton is last =>
    rw [List.map_append] at inc
    rw [List.getLast?_concat, List.filter_append, List.map_append, List.map_append]
    show size (_ ++ _) = size (is.map f ++ [((f last).1, (f last).2)]) ↔ _
    rw [size_concat]
    cases kept : q last with
    | true =>
      rw [List.filter_cons_of_pos kept, List.filter_nil]
      refine ⟨fun _ p eq => ?_, fun _ => size_concat⟩
      obtain rfl := Option.some.inj eq
      exact kept
    | false =>
      rw [List.filter_cons_of_neg (by rw [kept]; exact Bool.false_ne_true), List.filter_nil,
        List.map_nil, List.append_nil]
      have less : size ((is.filter q).map f) ≤ (f last).1 := by
        refine Sparse.size_le fun p mem => inc.concat.2 p ?_
        exact (List.filter_sublist.map f).subset mem
      refine ⟨fun same => absurd same (by omega), fun all => ?_⟩
      exact absurd (all _ rfl) (by rw [kept]; exact Bool.false_ne_true)

/-- **Leaving words out is not seen** when they are the default and none of them is the last, and
only then. -/
theorem memory_filter_iff (inc : Increasing (is.map f)) (q : ι → Bool) :
    memory zero ((is.filter q).map f) = memory zero (is.map f) ↔
      (∀ i ∈ is, q i = false → (f i).2 = zero) ∧ ∀ i, is.getLast? = some i → q i = true := by
  rw [← size_filter_iff inc q]
  constructor
  · intro same
    have size_eq : size ((is.filter q).map f) = size (is.map f) := by
      simpa using congrArg List.length same
    refine ⟨fun i mem out => ?_, size_eq⟩
    have here := congrArg (·[(f i).1]?) same
    have inside := inc.lt_size (List.mem_map_of_mem mem)
    simp only [memory_get?, size_eq, inside, if_true, lookup_map inc mem, lookup_filter inc q mem,
      out] at here
    exact (Option.some.inj here).symm
  · rintro ⟨default, size_eq⟩
    unfold memory
    rw [size_eq]
    refine List.map_congr_left fun k _ => ?_
    cases found : (is.map f).lookup k with
    | none =>
      have absent : ((is.filter q).map f).lookup k = none := by
        rw [List.lookup_eq_none_iff] at found ⊢
        exact fun p mem => found p ((List.filter_sublist.map f).subset mem)
      rw [absent]
    | some w =>
      have mem := (Named.lookup_eq_some inc.nodup).1 found
      obtain ⟨i, mem, eq⟩ := List.mem_map.1 mem
      have kept := lookup_filter inc q mem
      rw [eq] at kept
      rw [kept]
      split_ifs with stays
      · rfl
      · have zero_eq := default i mem (by simpa using stays)
        rw [eq] at zero_eq
        exact zero_eq.symm

end Teres.Sparse
