import Teres.Laws.Rtl.Tmds
import Mathlib.Tactic.IntervalCases

/-!
# What a receiver makes of the symbols

A receiver has the symbol alone: it has neither `cnt` nor `xnor_op`. The two highest bits tell it
what was done to the byte, and a symbol that is one of the four of `control` is not a byte. So it
gets back what was sent, whatever the registers hold and whether or not the balance is kept
(`received_next`). The four stand apart because they change from bit to bit at least seven times,
and the symbol of a byte at most five times: `xnor_op` chooses the chain that changes less.
-/

namespace Teres.Rtl.Tmds

/-! ## The receiver -/

/-- What a pixel clock cycle sends. -/
inductive Sent where
  | video (d : BitVec 8)
  | control (c : BitVec 2)
deriving DecidableEq

def In.sent (i : In) : Sent :=
  if i.iVideoEnable then .video i.iVideoData else .control i.iCtrlData

/-- The byte of a symbol: the inversion undone, then the chain. -/
def unchained (q : BitVec 10) : BitVec 8 :=
  let low := if q.getLsbD 9 then ~~~q.setWidth 8 else q.setWidth 8
  low ^^^ low <<< 1 ^^^ if q.getLsbD 8 then 0#8 else 0b11111110#8

def received (q : BitVec 10) : Sent :=
  if q = control 0#2 then .control 0#2
  else if q = control 1#2 then .control 1#2
  else if q = control 2#2 then .control 2#2
  else if q = control 3#2 then .control 3#2
  else .video (unchained q)

/-- How often a word changes from one bit to the next. -/
def flips {w : ℕ} (x : BitVec w) : ℕ :=
  (List.range (w - 1)).countP fun i => x.getLsbD i ^^ x.getLsbD (i + 1)

/-! ## The chain -/

theorem chain_flip (xnor : Bool) (d : BitVec 8) (i : ℕ) :
    (chain xnor d i ^^ chain xnor d (i + 1)) = (d.getLsbD (i + 1) ^^ xnor) := by
  rw [chain, Bool.xor_assoc, ← Bool.xor_assoc, Bool.xor_self, Bool.false_xor]

theorem getLsbD_qMLow (d : BitVec 8) {i : ℕ} (lt : i < 8) :
    (qMLow d).getLsbD i = chain (xnorOp d) d i := by
  unfold qMLow
  rw [BitVec.getLsbD_ofBoolListLE]
  interval_cases i <;> rfl

/-- The byte is got back from the chain. -/
theorem unchain (d : BitVec 8) :
    qMLow d ^^^ qMLow d <<< 1 ^^^ (if qM8 d then 0#8 else 0b11111110#8) = d := by
  have mask (b : Bool) {i : ℕ} (lt : i + 1 < 8) :
      (if !b then 0#8 else 0b11111110#8).getLsbD (i + 1) = b := by
    have lt' : i < 7 := Nat.lt_of_succ_lt_succ lt
    revert b
    interval_cases i <;> decide
  refine BitVec.eq_of_getLsbD_eq fun i lt => ?_
  rw [BitVec.getLsbD_xor, BitVec.getLsbD_xor, BitVec.getLsbD_shiftLeft, getLsbD_qMLow d lt]
  cases i with
  | zero => cases xnor : xnorOp d <;> simp [qM8, xnor, chain]
  | succ i =>
    have below : i < 8 := Nat.lt_of_succ_lt lt
    have first : decide (i + 1 < 1) = false := decide_eq_false (by omega)
    rw [first, Nat.add_sub_cancel, getLsbD_qMLow d below, qM8, mask _ lt, decide_eq_true lt,
      Bool.not_false, Bool.true_and, Bool.true_and, Bool.xor_comm (chain _ _ _) (chain _ _ i),
      chain_flip, Bool.xor_assoc, Bool.xor_self, Bool.xor_false]

/-- **The chain changes three times at most.** -/
theorem flips_qMLow (d : BitVec 8) : flips (qMLow d) ≤ 3 := by
  have few : ∀ d : BitVec 8,
      (List.range 7).countP (fun i => d.getLsbD (i + 1) ^^ xnorOp d) ≤ 3 := by decide +kernel
  refine (Nat.le_of_eq (List.countP_congr fun i mem => ?_)).trans (few d)
  have lt : i < 7 := List.mem_range.1 mem
  rw [getLsbD_qMLow d (by omega), getLsbD_qMLow d (by omega), chain_flip]

/-! ## Symbols -/

section Symbol

variable (b9 b8 : Bool) (low : BitVec 8)

theorem symbol_low {i : ℕ} (lt : i < 8) :
    (symbol b9 b8 low).getLsbD i = low.getLsbD i := by
  rw [symbol, BitVec.getLsbD_append, if_pos lt]

theorem symbol_eight : (symbol b9 b8 low).getLsbD 8 = b8 := by
  rw [symbol, BitVec.getLsbD_append, if_neg (by decide), BitVec.getLsbD_append, if_pos (by decide)]
  exact BitVec.getLsbD_ofBool b8 0

theorem symbol_nine : (symbol b9 b8 low).getLsbD 9 = b9 := by
  rw [symbol, BitVec.getLsbD_append, if_neg (by decide), BitVec.getLsbD_append, if_neg (by decide)]
  exact BitVec.getLsbD_ofBool b9 0

theorem setWidth_symbol : (symbol b9 b8 low).setWidth 8 = low := by
  refine BitVec.eq_of_getLsbD_eq fun i lt => ?_
  rw [BitVec.getLsbD_setWidth, decide_eq_true lt, Bool.true_and, symbol_low b9 b8 low lt]

/-- Inverted or not, the receiver has the chain. -/
theorem unchained_symbol (d : BitVec 8) :
    unchained (symbol b9 (qM8 d) (if b9 then ~~~qMLow d else qMLow d)) = d := by
  unfold unchained
  rw [symbol_nine, symbol_eight, setWidth_symbol]
  cases b9 with
  | false => exact unchain d
  | true =>
    rw [if_pos rfl, if_pos rfl, BitVec.not_not]
    exact unchain d

theorem flips_not : flips (~~~low) = flips low := by
  refine List.countP_congr fun i mem => ?_
  have lt : i < 7 := List.mem_range.1 mem
  have here : i < 8 := by omega
  have above : i + 1 < 8 := by omega
  rw [BitVec.getLsbD_not, BitVec.getLsbD_not, decide_eq_true here, decide_eq_true above]
  simp

/-- Two more bits make two more changes at most. -/
theorem flips_symbol : flips (symbol b9 b8 low) ≤ flips low + 2 := by
  have split : List.range 9 = List.range 7 ++ [7, 8] := rfl
  have same : (List.range 7).countP (fun i =>
      (symbol b9 b8 low).getLsbD i ^^ (symbol b9 b8 low).getLsbD (i + 1)) = flips low := by
    refine List.countP_congr fun i mem => ?_
    have lt : i < 7 := List.mem_range.1 mem
    rw [symbol_low b9 b8 low (by omega), symbol_low b9 b8 low (by omega)]
  have two : ([7, 8].countP fun i =>
      (symbol b9 b8 low).getLsbD i ^^ (symbol b9 b8 low).getLsbD (i + 1)) ≤ 2 :=
    List.countP_le_length
  rw [flips, split, List.countP_append, same]
  exact Nat.add_le_add_left two _

end Symbol

/-! ## What is sent -/

/-- Each branch sends the chain, inverted or not. -/
theorem video_symbol (cnt : BitVec 4) (d : BitVec 8) : ∃ b9,
    (video cnt d).qOut = symbol b9 (qM8 d) (if b9 then ~~~qMLow d else qMLow d) := by
  unfold video
  split_ifs
  · refine ⟨!qM8 d, ?_⟩
    cases same : qM8 d <;> simp [even, same]
  · exact ⟨true, rfl⟩
  · exact ⟨false, rfl⟩

theorem flips_video (cnt : BitVec 4) (d : BitVec 8) : flips (video cnt d).qOut ≤ 5 := by
  obtain ⟨b9, sent⟩ := video_symbol cnt d
  rw [sent]
  refine (flips_symbol _ _ _).trans (Nat.add_le_add_right ?_ 2)
  cases b9 with
  | false => exact flips_qMLow d
  | true => exact (flips_not _).trans_le (flips_qMLow d)

theorem flips_control : ∀ c : BitVec 2, 7 ≤ flips (control c) := by decide

theorem received_control : ∀ c : BitVec 2, received (control c) = .control c := by decide

/-- A symbol that changes less often is none of the four. -/
theorem received_video {q : BitVec 10} (few : flips q ≤ 5) :
    received q = .video (unchained q) := by
  have apart (c : BitVec 2) : q ≠ control c := by
    rintro rfl
    have many := flips_control c
    omega
  rw [received, if_neg (apart 0#2), if_neg (apart 1#2), if_neg (apart 2#2), if_neg (apart 3#2)]

/-- **The receiver gets what was sent**: in every run, whatever the registers held, the symbol
behind an edge is the byte or the control bits of the edge to a receiver that sees nothing else. A
byte's symbol changes at most five times, a control symbol at least seven times. -/
theorem received_next (s : State) (i : In) :
    received (next s i).qOut = i.sent ∧
      if i.iVideoEnable then flips (next s i).qOut ≤ 5 else 7 ≤ flips (next s i).qOut := by
  unfold next In.sent
  cases i.iVideoEnable with
  | true =>
    have few := flips_video s.cnt i.iVideoData
    obtain ⟨b9, sent⟩ := video_symbol s.cnt i.iVideoData
    refine ⟨?_, few⟩
    rw [if_pos rfl, if_pos rfl, received_video few, sent, unchained_symbol]
  | false => exact ⟨received_control _, flips_control _⟩

end Teres.Rtl.Tmds
