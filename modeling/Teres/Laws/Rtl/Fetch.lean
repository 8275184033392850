import Teres.Rtl.Fetch
import Mathlib.Algebra.Group.Basic

/-!
# What a stall does to instruction fetch

Up to the first stall the words come in order, each with its address plus four (`unstalled_run`). A
stall holds the address, but not the memory: the word that is on its way is dropped, and the first
word behind the stall comes with an `O_pc_plus_4` that is its own address. So the words are those of
the memory, in order, only in runs where no stall ends (`fetches_iff`).
-/

namespace Teres.Rtl.Fetch

variable {mem : BitVec 32 → BitVec 32} {start : BitVec 32 × BitVec 32} {input : ℕ → Stalls} {n : ℕ}

/-! ## One edge -/

/-- A stalled edge holds the address and leads to a NOP. -/
theorem stalled_edge (stall : (input n).any = true) :
    (states mem start input (n + 1)).fetch.oInstr = nop ∧
      (states mem start input (n + 1)).fetch.pcCurrent =
        (states mem start input n).fetch.pcCurrent :=
  ⟨if_pos stall, if_pos stall⟩

/-- An edge that is not stalled latches the word and goes on to the next address. -/
theorem free_edge (free : (input n).any = false) :
    (states mem start input (n + 1)).fetch.oInstr = (states mem start input n).dat ∧
      (states mem start input (n + 1)).fetch.pcCurrent =
        (states mem start input n).fetch.pcCurrent + 4#32 := by
  have stall : ¬ ((input n).iStall || (input n).iStallInstr) = true := by
    intro stall
    exact nomatch free.symm.trans stall
  exact ⟨if_neg stall, (if_neg stall).trans (if_neg Bool.false_ne_true)⟩

/-- The word on the pins is that of the address of the cycle before. -/
theorem dat_eq : (states mem start input (n + 1)).dat =
    mem (states mem start input n).fetch.pcCurrent := rfl

theorem pcFetchedPlus4_eq : (states mem start input (n + 1)).fetch.pcFetchedPlus4 =
    (states mem start input n).fetch.pcCurrent := rfl

/-- What is delivered, by the addresses of two cycles. -/
theorem delivers_free (free : (input (n + 1)).any = false) : delivers mem start input (n + 1) =
    [⟨(states mem start input n).fetch.pcCurrent,
      mem (states mem start input n).fetch.pcCurrent,
      (states mem start input (n + 1)).fetch.pcCurrent⟩] := by
  rw [delivers, free, if_neg Bool.false_ne_true, (free_edge free).1, pcFetchedPlus4_eq, dat_eq]

theorem delivers_stalled (stall : (input n).any = true) : delivers mem start input n = [] := by
  cases n with
  | zero => rfl
  | succ n => exact if_pos stall

/-! ## Runs -/

/-- Without a stall the address goes on by four. -/
theorem unstalled_pc : ∀ n, (∀ k < n, (input k).any = false) →
    (states mem start input n).fetch.pcCurrent = BitVec.ofNat 32 (4 * n)
  | 0, _ => rfl
  | n + 1, free => by
    rw [(free_edge (free n (Nat.lt_succ_self n))).2,
      unstalled_pc n fun k hk => free k (Nat.lt_succ_of_lt hk), ← BitVec.ofNat_add]
    rfl

/-- **Without a stall** the words come in order. -/
theorem unstalled_run : ∀ n, (∀ k < n + 1, (input k).any = false) →
    delivered mem start input (n + 1) = (List.range n).map (expected mem)
  | 0, _ => rfl
  | n + 1, free => by
    have before := unstalled_run n fun k hk => free k (Nat.lt_succ_of_lt hk)
    rw [delivered, Clocked.ledger_succ]
    change delivered mem start input (n + 1) ++ _ = _
    rw [before, delivers_free (free (n + 1) (Nat.lt_succ_self _)),
      unstalled_pc n fun k hk => free k (by omega),
      unstalled_pc (n + 1) fun k hk => free k (Nat.lt_succ_of_lt hk), List.range_succ,
      List.map_append]
    rfl

/-- The words that are to be delivered come with their addresses plus four. -/
theorem expected_pcPlus4 (j : ℕ) : (expected mem j).pcPlus4 = (expected mem j).address + 4#32 := by
  unfold expected
  rw [← BitVec.ofNat_add]

/-- Where no stall ends, all edges in front of one that is not stalled are not stalled. -/
theorem free_before (ends : ∀ k, k + 1 < n → (input k).any = true → (input (k + 1)).any = true)
    {m : ℕ} (hm : m < n) (free : (input m).any = false) : ∀ k ≤ m, (input k).any = false := by
  intro k hk
  induction hk using Nat.decreasingInduction with
  | self => exact free
  | of_succ k hk ih =>
    cases stall : (input k).any with
    | false => rfl
    | true => exact nomatch ih.symm.trans (ends k (by omega) stall)

/-- **The memory is fetched in order** if and only if no stall ends. -/
theorem fetches_iff : Fetches mem start input n ↔
    ∀ k, k + 1 < n → (input k).any = true → (input (k + 1)).any = true := by
  constructor
  · rintro ⟨⟨m, words⟩, _⟩ k hk stall
    by_contra free
    have free' : (input (k + 1)).any = false := Bool.eq_false_of_not_eq_true free
    have delivery : delivers mem start input (k + 1) =
        [⟨(states mem start input k).fetch.pcCurrent,
          mem (states mem start input k).fetch.pcCurrent,
          (states mem start input k).fetch.pcCurrent⟩] := by
      rw [delivers_free free', (stalled_edge stall).2]
    have held : (⟨_, _, _⟩ : Word) ∈ delivered mem start input n :=
      Clocked.mem_ledger.mpr ⟨k + 1, hk, by rw [delivery]; exact List.mem_singleton_self _⟩
    rw [words, List.mem_map] at held
    obtain ⟨j, _, same⟩ := held
    have four : (expected mem j).pcPlus4 = (expected mem j).address + 4#32 := expected_pcPlus4 j
    rw [same] at four
    have zero : (4 : BitVec 32) = 0 := left_eq_add.mp four
    exact absurd zero (by decide)
  · intro ends
    refine ⟨?_, fun k _ stall => (stalled_edge stall).1⟩
    induction n with
    | zero => exact ⟨0, rfl⟩
    | succ n ih =>
      cases last : (input n).any with
      | true =>
        obtain ⟨m, words⟩ := ih fun k hk => ends k (Nat.lt_succ_of_lt hk)
        refine ⟨m, ?_⟩
        rw [delivered, Clocked.ledger_succ, delivers_stalled last, List.append_nil]
        exact words
      | false =>
        have free := free_before ends (Nat.lt_succ_self n) last
        exact ⟨n, unstalled_run n fun k hk => free k (Nat.le_of_lt_succ hk)⟩

/-- One stall, at edge 2. -/
def oneStall (n : ℕ) : Stalls := ⟨n == 2, false⟩

/-- The word at address 4 is skipped, and the word at address 8 comes with 8 for its
`O_pc_plus_4`. -/
theorem word_skipped :
    delivered id (0#32, 0#32) oneStall 4 = [⟨0#32, 0#32, 4#32⟩, ⟨8#32, 8#32, 8#32⟩] ∧
    ¬ Fetches id (0#32, 0#32) oneStall 4 := by
  have words : delivered id (0#32, 0#32) oneStall 4 = [⟨0#32, 0#32, 4#32⟩, ⟨8#32, 8#32, 8#32⟩] := by
    decide
  refine ⟨words, ?_⟩
  rintro ⟨⟨m, same⟩, _⟩
  rw [words] at same
  obtain rfl : m = 2 := by
    have length := congrArg List.length same
    rw [List.length_map, List.length_range] at length
    exact length.symm
  exact absurd same (by decide)

end Teres.Rtl.Fetch
