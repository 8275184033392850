import Teres.Rtl.Arbiter
import Mathlib.Data.Nat.Count

/-!
# The arbiter is a round robin, except where it is held

The registers hold a `Turn`: `mask` the bit behind which the last search began, `found` what it
found (`holds_run`). At an edge that decides, `O_grant` is what was found, and so the arbiter is as
fair as a round robin (`granted_in_turn`). At an edge that is held, `O_grant` is written from
`mask`, and so what is granted is the bit that was granted before the last decision, and is kept
only where the two are the same (`safe_iff`).
-/

namespace Teres.Rtl.Arbiter

variable {w : ℕ}

/-! ## The loop -/

/-- The bit vector of a grant. -/
def bit (w : ℕ) (k : Option ℕ) : BitVec w := k.elim 0#w (BitVec.twoPow w)

theorem twoPow_ne_zero {k : ℕ} (hk : k < w) : BitVec.twoPow w k ≠ 0#w := by
  intro zero
  have set := congrArg (fun x => x.getLsbD k) zero
  simp only [BitVec.getLsbD_twoPow, hk, decide_true, Bool.and_self, BitVec.getLsbD_zero] at set
  exact nomatch set

theorem twoPow_zero : BitVec.twoPow w 0 = 1#w := by
  rw [BitVec.twoPow_eq, BitVec.shiftLeft_zero]

/-- A bit rotated by one is the next one of the ring. -/
theorem rotate_twoPow {p : ℕ} (hp : p < w) :
    (BitVec.twoPow w p).rotateLeft 1 = BitVec.twoPow w ((p + 1) % w) := by
  have place : (p + 1) % w < w := Nat.mod_lt _ (by omega)
  rcases Nat.lt_or_ge 1 w with wide | narrow
  · apply BitVec.eq_of_getLsbD_eq
    intro i hi
    rw [BitVec.getLsbD_rotateLeft, Nat.mod_eq_of_lt wide]
    simp only [BitVec.getLsbD_twoPow, hp, hi, place, decide_true, Bool.true_and]
    rcases Nat.lt_or_ge (p + 1) w with inside | last
    · rw [Nat.mod_eq_of_lt inside]
      cases i with
      | zero => exact decide_eq_decide.mpr (by omega)
      | succ i => exact decide_eq_decide.mpr (by omega)
    · obtain rfl : w = p + 1 := by omega
      rw [Nat.mod_self]
      cases i with
      | zero => exact decide_eq_decide.mpr (by omega)
      | succ i => exact decide_eq_decide.mpr (by omega)
  · obtain rfl : w = 1 := by omega
    obtain rfl : p = 0 := by omega
    rfl

/-- **The loop searches the ring**, and leaves the mask `d` places further. -/
theorem iterations_eq {p : ℕ} (hp : p < w) (request : BitVec w) : ∀ d,
    State.iterations request d ⟨BitVec.twoPow w p, 0#w, 0#w⟩ =
      ⟨BitVec.twoPow w ((p + d) % w),
        bit w (RoundRobin.within w p request.getLsbD d),
        bit w (RoundRobin.within w p request.getLsbD d)⟩
  | 0 => by
    rw [Nat.add_zero, Nat.mod_eq_of_lt hp]
    rfl
  | d + 1 => by
    have place : ∀ e, (p + e) % w < w := fun e => Nat.mod_lt _ (by omega)
    have mask : (BitVec.twoPow w ((p + d) % w)).rotateLeft 1 =
        BitVec.twoPow w ((p + (d + 1)) % w) := by
      rw [rotate_twoPow (place d), Nat.mod_add_mod, Nat.add_assoc]
    rw [State.iterations, iterations_eq hp request d]
    unfold State.iterate
    simp only [mask, BitVec.twoPow_and]
    rw [RoundRobin.within]
    cases found : RoundRobin.within w p request.getLsbD d with
    | some k =>
      obtain ⟨_, _, _, rfl, _⟩ := RoundRobin.within_some found
      exact if_neg fun h => twoPow_ne_zero (place _) h.1
    | none =>
      cases asks : request.getLsbD ((p + (d + 1)) % w) with
      | true => exact if_pos ⟨rfl, twoPow_ne_zero (place _)⟩
      | false => exact if_neg fun h => h.2 rfl

/-! ## The registers hold the last decision -/

theorem In.decides_iff {i : In w} : i.decides = true ↔ i.iRst = false ∧ i.iStall = false := by
  rw [In.decides, Bool.and_eq_true, Bool.not_eq_true', Bool.not_eq_true']

theorem In.held_iff {i : In w} : i.held = true ↔ i.iRst = false ∧ i.iStall = true := by
  rw [In.held, Bool.and_eq_true, Bool.not_eq_true']

namespace Turn

variable {t : Turn}

theorem winner_lt (start : t.start < w) {k : ℕ} (h : t.winner w = some k) : k < w :=
  RoundRobin.first_lt start h

theorem rest_lt (start : t.start < w) : t.rest w < w := by
  unfold rest
  cases won : t.winner w with
  | none => exact Nat.lt_of_le_of_lt (Nat.zero_le _) start
  | some k => exact winner_lt start won

/-- The search comes back to where it began just if nothing else asked. -/
theorem winner_start_iff (start : t.start < w) :
    t.winner w = some t.start ↔ t.Alone w := RoundRobin.first_self_iff start

end Turn

/-- The registers of a decision. -/
structure Holds (s : State w) (t : Turn) : Prop where
  start : t.start < w
  mask : s.mask = BitVec.twoPow w t.start
  found : s.found = bit w (t.winner w)

theorem holds_reset (wide : 0 < w) : Holds (reset w) Turn.init := by
  refine ⟨wide, twoPow_zero.symm, ?_⟩
  have nothing : Turn.init.winner w = none :=
    RoundRobin.within_none.mpr fun _ _ _ => rfl
  rw [nothing]
  rfl

/-- **An edge that decides** searches behind what was found last. -/
theorem next_decides {s : State w} {t : Turn} (holds : Holds s t) {i : In w}
    (rst : i.iRst = false) (stall : i.iStall = false) :
    next s i = ⟨BitVec.twoPow w (t.rest w), bit w ((t.next i).winner w),
      bit w ((t.next i).winner w)⟩ := by
  have rest := Turn.rest_lt holds.start
  have from_ : (if s.found ≠ 0#w then s.found else 1#w) =
      BitVec.twoPow w (t.rest w) := by
    unfold Turn.rest
    rw [holds.found]
    cases won : t.winner w with
    | none => exact (if_neg fun h => h rfl).trans twoPow_zero.symm
    | some k => exact if_pos (twoPow_ne_zero (Turn.winner_lt holds.start won))
  have decision : t.next i = ⟨t.rest w, i.iRequest.getLsbD⟩ := by
    rw [Turn.next, rst, stall]
    rfl
  have searched : next s i = State.iterations i.iRequest w
      ⟨if s.found ≠ 0#w then s.found else 1#w, 0#w, 0#w⟩ := by
    rw [next, rst, stall]
    rfl
  rw [searched, from_, iterations_eq rest, Nat.add_mod_right, Nat.mod_eq_of_lt rest, decision]
  rfl

/-- **One clock edge** of the registers is one of the round robin. -/
theorem holds_next {s : State w} {t : Turn} (holds : Holds s t) (i : In w) :
    Holds (next s i) (t.next i) := by
  cases rst : i.iRst with
  | true =>
    rw [next, Turn.next, rst]
    exact holds_reset (Nat.lt_of_le_of_lt (Nat.zero_le _) holds.start)
  | false =>
    cases stall : i.iStall with
    | true =>
      rw [next, Turn.next, rst, stall]
      exact ⟨holds.start, holds.mask, holds.found⟩
    | false =>
      have decision : (t.next i).start = t.rest w := by
        rw [Turn.next, rst, stall]
        rfl
      rw [next_decides holds rst stall]
      refine ⟨?_, ?_, rfl⟩
      · rw [decision]
        exact Turn.rest_lt holds.start
      · rw [decision]

section Runs

variable (input : ℕ → In w)

/-- **In every run** the registers hold the last decision. -/
theorem holds_run (wide : 0 < w) : ∀ n, Holds (states input n) (turns input n)
  | 0 => holds_reset wide
  | n + 1 => holds_next (holds_run wide n) (input n)

/-- At an edge that is not held, what is found is granted. -/
theorem grant_free (wide : 0 < w) {n : ℕ} (free : (input n).held = false) :
    (states input (n + 1)).oGrant = bit w ((turns input (n + 1)).winner w) := by
  have holds := holds_run input wide (n + 1)
  rw [← holds.found]
  change (next (states input n) (input n)).oGrant = (next (states input n) (input n)).found
  cases rst : (input n).iRst with
  | true =>
    rw [next, rst]
    rfl
  | false =>
    rw [In.held, rst] at free
    rw [next_decides (holds_run input wide n) rst free]

/-- At an edge that is held, what was granted before the last decision is granted. -/
theorem grant_held (wide : 0 < w) {n : ℕ} (held : (input n).held = true) :
    (states input (n + 1)).oGrant = bit w (some (turns input n).start) ∧
      turns input (n + 1) = turns input n := by
  obtain ⟨rst, stall⟩ := In.held_iff.mp held
  have kept : turns input (n + 1) = (turns input n).next (input n) := rfl
  refine ⟨?_, ?_⟩
  · change (next (states input n) (input n)).oGrant = _
    rw [next, rst, stall]
    exact (holds_run input wide n).mask
  · rw [kept, Turn.next, rst, stall]
    rfl

/-- What is granted at an edge that decides is the winner. -/
theorem grants_iff (wide : 0 < w) {n k : ℕ} :
    Grants input n k ↔
      (input n).decides = true ∧ (turns input (n + 1)).winner w = some k := by
  unfold Grants
  refine and_congr_right fun decides => ?_
  have free : (input n).held = false := by
    rw [In.held, (In.decides_iff.mp decides).2, Bool.and_false]
  rw [grant_free input wide free]
  cases won : (turns input (n + 1)).winner w with
  | none =>
    have nothing : (bit w none).getLsbD k = false := BitVec.getLsbD_zero
    rw [nothing]
    exact iff_of_false (fun h => nomatch h) (fun h => nomatch h)
  | some p =>
    have place : p < w := Turn.winner_lt (holds_run input wide (n + 1)).start won
    change (BitVec.twoPow w p).getLsbD k = true ↔ _
    rw [BitVec.getLsbD_twoPow, decide_eq_true place, Bool.true_and, decide_eq_true_iff]
    exact Option.some_inj.symm

/-! ## Fairness -/

/-- How far bit `k` is ahead of where the next search begins. -/
def waiting (k n : ℕ) : ℕ := RoundRobin.ahead w ((turns input n).rest w) k

/-- **One edge brings a waiting bit nearer**, if it decides. -/
theorem waiting_step {n k : ℕ} (bound : k < w) (rst : (input n).iRst = false)
    (asks : (input n).iRequest.getLsbD k = true) (passed : ¬ Grants input n k) :
    waiting input k (n + 1) + (if (input n).iStall = false then 1 else 0) ≤ waiting input k n := by
  have wide : 0 < w := Nat.lt_of_le_of_lt (Nat.zero_le _) bound
  have rest := Turn.rest_lt (holds_run input wide n).start
  have next_ : turns input (n + 1) = (turns input n).next (input n) := rfl
  cases stall : (input n).iStall with
  | true =>
    have same : turns input (n + 1) = turns input n := by
      rw [next_, Turn.next, rst, stall]
      rfl
    unfold waiting
    rw [same, if_neg (by decide)]
    exact Nat.le_refl _
  | false =>
    have decides : (input n).decides = true := In.decides_iff.mpr ⟨rst, stall⟩
    have decision : turns input (n + 1) = ⟨(turns input n).rest w, (input n).iRequest.getLsbD⟩ := by
      rw [next_, Turn.next, rst, stall]
      rfl
    have search : (turns input (n + 1)).winner w =
        RoundRobin.first w ((turns input n).rest w) (input n).iRequest.getLsbD := by
      rw [decision]
      rfl
    rw [if_pos rfl]
    cases won : (turns input (n + 1)).winner w with
    | none => exact absurd (search.symm.trans won) (RoundRobin.first_ne_none rest bound asks)
    | some j =>
      have other : j ≠ k := by
        rintro rfl
        exact passed ((grants_iff input wide).mpr ⟨decides, won⟩)
      have found : (turns input (n + 1)).rest w = j := by
        rw [Turn.rest, won]
        rfl
      unfold waiting
      rw [found]
      exact RoundRobin.ahead_falls rest (search.symm.trans won) bound asks other

/-- Bit `k` asks at the `n` edges from edge `m` on, none of which is a reset, and is not granted. -/
structure Waits (m n k : ℕ) : Prop where
  bound : k < w
  rst : ∀ t < n, (input (m + t)).iRst = false
  asks : ∀ t < n, (input (m + t)).iRequest.getLsbD k = true
  passed : ∀ t < n, ¬ Grants input (m + t) k

variable {input}

theorem Waits.step {m n k t : ℕ} (waits : Waits input m n k) (ht : t < n) :
    waiting input k (m + (t + 1)) + (if (input (m + t)).iStall = false then 1 else 0) ≤
      waiting input k (m + t) :=
  waiting_step input waits.bound (waits.rst t ht) (waits.asks t ht) (waits.passed t ht)

/-- What a waiting bit has come nearer is the number of edges that decided. -/
theorem Waits.nearer {m n k : ℕ} (waits : Waits input m n k) : ∀ t ≤ n,
    waiting input k (m + t) + Nat.count (fun t => (input (m + t)).iStall = false) t ≤
      waiting input k m
  | 0, _ => Nat.le_refl _
  | t + 1, ht => by
    have before := waits.nearer t (Nat.le_of_lt ht)
    have step := waits.step ht
    rw [Nat.count_succ]
    omega

theorem Waits.antitone {m n k a : ℕ} (waits : Waits input m n k) : ∀ b, a + b ≤ n →
    waiting input k (m + (a + b)) ≤ waiting input k (m + a)
  | 0, _ => Nat.le_refl _
  | b + 1, hb => by
    have before := waits.antitone b (Nat.le_of_succ_le hb)
    have step := waits.step hb
    exact Nat.le_trans (Nat.le_of_add_right_le step) before

/-- While a bit waits, fewer edges decide than there are bits. -/
theorem Waits.few {m n k : ℕ} (waits : Waits input m n k) :
    Nat.count (fun t => (input (m + t)).iStall = false) n < w := by
  have rest := fun t => Turn.rest_lt (holds_run input (Nat.zero_lt_of_lt waits.bound) t).start
  have nearer := waits.nearer n (Nat.le_refl n)
  have most : waiting input k m ≤ w := RoundRobin.ahead_le (rest m) waits.bound
  have least : 0 < waiting input k (m + n) := RoundRobin.ahead_pos (rest (m + n))
  omega

/-- While a bit waits, no bit is granted twice. -/
theorem Waits.once {m n k j a b : ℕ} (waits : Waits input m n k) (bound : j < w)
    (order : a < b) (inside : b < n) (before : Grants input (m + a) j) :
    ¬ Grants input (m + b) j := by
  intro again
  have wide := Nat.zero_lt_of_lt bound
  have place : ∀ {t}, Grants input t j → waiting input k (t + 1) = RoundRobin.ahead w j k :=
    fun grant => by
      unfold waiting Turn.rest
      rw [((grants_iff input wide).mp grant).2]
      rfl
  obtain ⟨d, rfl⟩ : ∃ d, b = a + 1 + d := ⟨b - (a + 1), by omega⟩
  have between := waits.antitone (a := a + 1) d (Nat.le_of_lt inside)
  have step := waits.step inside
  rw [if_pos (In.decides_iff.mp again.1).2] at step
  have first : waiting input k (m + (a + 1)) = RoundRobin.ahead w j k := place before
  have second : waiting input k (m + (a + 1 + d + 1)) = RoundRobin.ahead w j k := place again
  omega

/-- **Fairness.** Where bit `k` asks at `n` edges without a reset, no other bit is granted at two of
them before `k` is, and as many of them as there are bits are enough for `k` to be granted. -/
theorem granted_in_turn {m n k : ℕ} (bound : k < w)
    (asks : ∀ t < n, (input (m + t)).iRst = false ∧ (input (m + t)).iRequest.getLsbD k = true) :
    (∀ j ≠ k, ∀ a b, a < b → b < n → Grants input (m + a) j → Grants input (m + b) j →
      ∃ c < b, Grants input (m + c) k) ∧
    (w ≤ Nat.count (fun t => (input (m + t)).iStall = false) n →
      ∃ c < n, Grants input (m + c) k) := by
  have wide := Nat.zero_lt_of_lt bound
  constructor
  · intro j other a b order inside before again
    by_contra none
    have within : j < w := BitVec.lt_of_getLsbD again.2
    have waits : Waits input m (b + 1) k := by
      refine ⟨bound, fun t ht => (asks t (by omega)).1, fun t ht => (asks t (by omega)).2,
        fun t ht grant => ?_⟩
      rcases Nat.lt_or_eq_of_le (Nat.le_of_lt_succ ht) with earlier | rfl
      · exact none ⟨t, earlier, grant⟩
      · have won := ((grants_iff input wide).mp again).2
        have won' := ((grants_iff input wide).mp grant).2
        exact other (Option.some.inj (won.symm.trans won'))
    exact waits.once within order (Nat.lt_succ_self b) before again
  · intro enough
    by_contra none
    have waits : Waits input m n k := ⟨bound, fun t ht => (asks t ht).1, fun t ht => (asks t ht).2,
      fun t ht grant => none ⟨t, ht, grant⟩⟩
    exact Nat.not_lt.mpr enough waits.few

end Runs

/-- Three bits that ask at every edge. -/
def busy (_ : ℕ) : In 3 := ⟨false, false, 0b111#3⟩

theorem granted_in_turn_busy : ∃ c < 3, Grants busy (0 + c) 0 :=
  have asks : (0b111#3).getLsbD 0 = true := by decide
  (granted_in_turn (by decide) fun _ _ => ⟨rfl, asks⟩).2 (by decide)

/-! ## Grants that are held -/

theorem atMostOne_bit (k : Option ℕ) : AtMostOne (bit w k) := by
  cases k with
  | none => exact fun i j hi => nomatch hi.symm.trans BitVec.getLsbD_zero
  | some p =>
    intro i j hi hj
    change (BitVec.twoPow w p).getLsbD _ = true at hi hj
    rw [BitVec.getLsbD_twoPow, Bool.and_eq_true, decide_eq_true_iff, decide_eq_true_iff] at hi hj
    rw [← hi.2, hj.2]

/-- Grants of different bits differ. -/
theorem bit_some_inj {k : Option ℕ} {p : ℕ} (hp : p < w) :
    bit w k = bit w (some p) ↔ k = some p := by
  refine ⟨fun same => ?_, fun same => congrArg (bit w) same⟩
  have set : (bit w k).getLsbD p = true := by
    rw [same]
    change (BitVec.twoPow w p).getLsbD p = true
    rw [BitVec.getLsbD_twoPow, decide_eq_true hp, decide_eq_true rfl]
    rfl
  cases k with
  | none => exact nomatch set.symm.trans BitVec.getLsbD_zero
  | some q =>
    change (BitVec.twoPow w q).getLsbD p = true at set
    rw [BitVec.getLsbD_twoPow, Bool.and_eq_true, decide_eq_true_iff, decide_eq_true_iff] at set
    rw [set.2]

section Held

variable (input : ℕ → In w)

/-- The last grant that was not held is the winner of the last decision. -/
theorem granted_eq (wide : 0 < w) : ∀ n, granted input n = bit w ((turns input n).winner w)
  | 0 => (holds_reset wide).found
  | n + 1 => by
    rw [granted]
    cases held : (input n).held with
    | true =>
      rw [(grant_held input wide held).2, if_pos rfl]
      exact granted_eq wide n
    | false =>
      rw [if_neg (by decide)]
      exact grant_free input wide held

/-- **At most one bit is granted**, at every edge. -/
theorem atMostOne_run (wide : 0 < w) : ∀ n, AtMostOne (states input n).oGrant
  | 0 => atMostOne_bit none
  | n + 1 => by
    cases held : (input n).held with
    | true =>
      rw [(grant_held input wide held).1]
      exact atMostOne_bit _
    | false =>
      rw [grant_free input wide held]
      exact atMostOne_bit _

/-- **A grant is kept at an edge that is held** if and only if the last decision asked the bit alone
that was granted before it. -/
theorem safe_iff (wide : 3 ≤ w) (n : ℕ) :
    Safe input n ↔ ((input n).held = true → (turns input n).Alone w) := by
  have some : 0 < w := by omega
  have start := (holds_run input some n).start
  unfold Safe
  rw [and_iff_right (atMostOne_run input some n)]
  refine forall_congr' fun held => ?_
  rw [(grant_held input some held).1, granted_eq input some n, eq_comm, bit_some_inj start,
    Turn.winner_start_iff start]

end Held

/-- The request `request` at edge 0, and the arbiter held from then on. -/
def heldBehind (request : BitVec 3) (n : ℕ) : In 3 := ⟨false, n != 0, request⟩

theorem safe_iff_first : Safe (heldBehind 0b001#3) 1 :=
  (safe_iff (heldBehind 0b001#3) (by decide) 1).mpr fun _ => ⟨rfl, by decide⟩

/-- Bit 1 is granted at edge 0, and bit 0, which never asked, at edge 1, which is held. -/
theorem held_grant_moves : (states (heldBehind 0b010#3) 1).oGrant = 0b010#3 ∧
    (states (heldBehind 0b010#3) 2).oGrant = 0b001#3 ∧ ¬ Safe (heldBehind 0b010#3) 1 := by
  have moved : (states (heldBehind 0b010#3) 2).oGrant ≠ granted (heldBehind 0b010#3) 1 := by decide
  exact ⟨by decide, by decide, fun safe => moved (safe.2 rfl)⟩

end Teres.Rtl.Arbiter
