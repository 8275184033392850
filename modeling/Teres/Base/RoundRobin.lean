import Mathlib.Algebra.Order.Group.Nat
import Mathlib.Data.Nat.Notation

/-!
# Round robin

`n` places stand in a ring, and the search for a place that asks begins behind the place `p` and
ends at `p` itself. The distance `ahead n p k` is the one measure there is: the search finds the
place at the least distance (`first_least`), and where the next search begins at what the last one
found, the distance to a place that asks and is passed over falls (`ahead_falls`).
-/

namespace Teres.RoundRobin

/-- How far the place `k` is ahead of the place `p`: one at the next place, `n` at `p` itself. -/
def ahead (n p k : ℕ) : ℕ := if p < k then k - p else k + n - p

/-- The first place that asks, among the next `d` behind `p`. -/
def within (n p : ℕ) (asks : ℕ → Bool) : ℕ → Option ℕ
  | 0 => none
  | d + 1 =>
    match within n p asks d with
    | some k => some k
    | none => if asks ((p + (d + 1)) % n) then some ((p + (d + 1)) % n) else none

/-- The first place that asks in the whole ring. -/
def first (n p : ℕ) (asks : ℕ → Bool) : Option ℕ := within n p asks n

variable {n p k : ℕ} {asks : ℕ → Bool}

theorem ahead_pos (hp : p < n) : 0 < ahead n p k := by
  unfold ahead
  split_ifs
  · omega
  · omega

theorem ahead_le (hp : p < n) (hk : k < n) : ahead n p k ≤ n := by
  unfold ahead
  split_ifs
  · omega
  · omega

/-- The place at a distance is the one that many steps further. -/
theorem add_ahead (hp : p < n) (hk : k < n) : (p + ahead n p k) % n = k := by
  unfold ahead
  split_ifs with h
  · rw [Nat.add_sub_cancel' (Nat.le_of_lt h), Nat.mod_eq_of_lt hk]
  · rw [Nat.add_sub_cancel' (Nat.le_trans (Nat.le_of_lt hp) (Nat.le_add_left n k)),
      Nat.add_mod_right, Nat.mod_eq_of_lt hk]

/-- A number of steps around the ring is the distance gone. -/
theorem ahead_add {d : ℕ} (hp : p < n) (pos : 0 < d) (hd : d ≤ n) :
    ahead n p ((p + d) % n) = d := by
  unfold ahead
  rcases Nat.lt_or_ge (p + d) n with inside | around
  · rw [Nat.mod_eq_of_lt inside, if_pos (by omega), Nat.add_sub_cancel_left]
  · have once : (p + d) % n = p + d - n := by
      rw [Nat.mod_eq_sub_mod around, Nat.mod_eq_of_lt (by omega)]
    rw [once]
    split_ifs
    · omega
    · omega

/-- The distance over a place in between. -/
theorem ahead_split {w : ℕ} (hp : p < n) (hw : w < n) (hk : k < n)
    (between : ahead n p w < ahead n p k) : ahead n w k = ahead n p k - ahead n p w := by
  unfold ahead at between ⊢
  split_ifs at between ⊢ <;> omega

/-! ## The search -/

/-- Nothing is found among places that do not ask. -/
theorem within_none {d : ℕ} : within n p asks d = none ↔
    ∀ e, 0 < e → e ≤ d → asks ((p + e) % n) = false := by
  induction d with
  | zero =>
    refine ⟨fun _ e pos le => ?_, fun _ => rfl⟩
    omega
  | succ d ih =>
    rw [within]
    cases found : within n p asks d with
    | some k =>
      refine ⟨fun h => (nomatch h), fun none => ?_⟩
      have before := ih.mpr fun e pos le => none e pos (Nat.le_succ_of_le le)
      exact nomatch found.symm.trans before
    | none =>
      have before := ih.mp found
      constructor
      · intro last e pos le
        rcases Nat.lt_or_eq_of_le le with earlier | rfl
        · exact before e pos (Nat.le_of_lt_succ earlier)
        · by_contra yes
          rw [if_pos (Bool.eq_true_of_not_eq_false yes)] at last
          exact nomatch last
      · intro none
        have last := none (d + 1) (Nat.succ_pos d) (Nat.le_refl _)
        exact if_neg (by rw [last]; decide)

/-- What is found asks, and no place before it does. -/
theorem within_some {d w : ℕ} (h : within n p asks d = some w) :
    ∃ e, 0 < e ∧ e ≤ d ∧ w = (p + e) % n ∧ asks w = true ∧
      ∀ e', 0 < e' → e' < e → asks ((p + e') % n) = false := by
  induction d with
  | zero => exact nomatch h
  | succ d ih =>
    rw [within] at h
    cases found : within n p asks d with
    | some k =>
      rw [found] at h
      obtain ⟨e, pos, le, rest⟩ := ih (found.trans h)
      exact ⟨e, pos, Nat.le_succ_of_le le, rest⟩
    | none =>
      rw [found] at h
      have before := within_none.mp found
      split_ifs at h with yes
      obtain rfl := Option.some.inj h
      exact ⟨d + 1, Nat.succ_pos d, Nat.le_refl _, rfl, yes,
        fun e' pos lt => before e' pos (Nat.le_of_lt_succ lt)⟩

theorem first_lt {w : ℕ} (hp : p < n) (h : first n p asks = some w) : w < n := by
  obtain ⟨_, _, _, rfl, _⟩ := within_some h
  exact Nat.mod_lt _ (Nat.lt_of_le_of_lt (Nat.zero_le p) hp)

theorem first_asks {w : ℕ} (h : first n p asks = some w) : asks w = true := by
  obtain ⟨_, _, _, _, yes, _⟩ := within_some h
  exact yes

/-- **The search finds the least distance.** -/
theorem first_least {w : ℕ} (hp : p < n) (h : first n p asks = some w) (hk : k < n)
    (yes : asks k = true) : ahead n p w ≤ ahead n p k := by
  obtain ⟨e, pos, le, rfl, _, before⟩ := within_some h
  rw [ahead_add hp pos le]
  by_contra closer
  have no := before (ahead n p k) (ahead_pos hp) (Nat.lt_of_not_le closer)
  rw [add_ahead hp hk, yes] at no
  exact nomatch no

/-- A place that asks is enough for the search to end. -/
theorem first_ne_none (hp : p < n) (hk : k < n) (yes : asks k = true) :
    first n p asks ≠ none := by
  intro none
  have no := within_none.mp none (ahead n p k) (ahead_pos hp) (ahead_le hp hk)
  rw [add_ahead hp hk, yes] at no
  exact nomatch no

/-- **A place that is passed over comes nearer.** -/
theorem ahead_falls {w : ℕ} (hp : p < n) (h : first n p asks = some w) (hk : k < n)
    (yes : asks k = true) (other : w ≠ k) : ahead n w k < ahead n p k := by
  have hw := first_lt hp h
  have less : ahead n p w < ahead n p k := by
    refine Nat.lt_of_le_of_ne (first_least hp h hk yes) fun same => other ?_
    rw [← add_ahead hp hw, same, add_ahead hp hk]
  have some := ahead_pos (k := w) hp
  rw [ahead_split hp hw hk less]
  omega

/-- The search comes back to where it began just when nothing else asks. -/
theorem first_self_iff (hp : p < n) :
    first n p asks = some p ↔ asks p = true ∧ ∀ k < n, asks k = true → k = p := by
  have full : ahead n p p = n := by
    unfold ahead
    rw [if_neg (Nat.lt_irrefl p), Nat.add_sub_cancel_left]
  constructor
  · intro back
    refine ⟨first_asks back, fun k hk yes => ?_⟩
    have least := first_least hp back hk yes
    rw [full] at least
    rw [← add_ahead hp hk, Nat.le_antisymm (ahead_le hp hk) least, Nat.add_mod_right,
      Nat.mod_eq_of_lt hp]
  · rintro ⟨yes, alone⟩
    cases found : first n p asks with
    | none => exact absurd found (first_ne_none hp hp yes)
    | some w => rw [alone w (first_lt hp found) (first_asks found)]

end Teres.RoundRobin
