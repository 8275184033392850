import Teres.Laws.Rtl.Bus
import Teres.Rtl.Cpu

/-!
# What the processor fetches

Both masters ask for the bus all the time, so it goes to the data port and to the fetch stage in
turns (`turns_run`), and the stage is stalled in every other cycle. The memory answers with the word
of the cycle before, which is the data port's. If the port's address is one of the memory's, its
word is taken for an instruction. If it is not, the memory has kept the address of the stage's turn
before, and the stall has kept the stage from going on: the word is the next one of the program,
with its address plus four (`program_fetched`).
-/

namespace Teres.Rtl.Cpu

open Bus (bsramSize uartAdr uartFault)

/-! ## One cycle -/

section Cycle

variable (firmware : BitVec 32 → Option (BitVec 32)) (period : BitVec 17) (s : State) (i : In)

/-- The bus is never stalled. -/
theorem decoded_stallBus (s : Bus.State) (i : Bus.In) : (Bus.decoded s i).stallBus = false := by
  unfold Bus.decoded
  dsimp only
  split_ifs <;> rfl

/-- Where the memory has its address from. -/
theorem decoded_adrBsram (s : Bus.State) (i : Bus.In) : (Bus.decoded s i).adrBsram =
    if (Bus.driven s.arbiter.oGrant i).adrBus < bsramSize then
      (Bus.driven s.arbiter.oGrant i).adrBus
    else s.adrBsram := by
  unfold Bus.decoded
  dsimp only
  split_ifs <;> rfl

/-- What a read brings. -/
theorem decoded_datInBus (s : Bus.State) (i : Bus.In)
    (read : (Bus.driven s.arbiter.oGrant i).weBus = 0#4) : (Bus.decoded s i).datInBus =
    if (Bus.driven s.arbiter.oGrant i).adrBus < bsramSize then s.ram.oDat
    else if (Bus.driven s.arbiter.oGrant i).adrBus = uartAdr then
      if i.uartDataReady then i.uartDataR.setWidth 32 else uartFault
    else 0#32 := by
  unfold Bus.decoded
  dsimp only
  rw [read]
  split_ifs <;> first | rfl | contradiction

/-- Both masters ask. -/
theorem next_arbiter (rst : i.iRst = false) : (next firmware period s i).soc.bus.arbiter =
    Arbiter.next s.soc.bus.arbiter ⟨false, false, 0b011#3⟩ := by
  have asks : Bus.request (s.busIn i) = 0b011#3 := by
    change (0#1 ++ BitVec.ofBool true ++ BitVec.ofBool true : BitVec 3) = 0b011#3
    decide
  change Arbiter.next s.soc.bus.arbiter
    ⟨i.iRst, (Bus.decoded s.soc.bus (s.busIn i)).stallBus, Bus.request (s.busIn i)⟩ = _
  rw [rst, decoded_stallBus, asks]

/-- What is driven in a turn of the stage. -/
theorem driven_instr : Bus.driven 0b001#3 (s.busIn i) =
    ⟨0#32, s.fetch.pcCurrent, 0#4, true⟩ := rfl

/-- What is driven in a turn of the data port. -/
theorem driven_data : Bus.driven 0b010#3 (s.busIn i) =
    ⟨i.datOutData, i.adrData, i.weData, true⟩ := rfl

/-- The stage is stalled if it is not its turn. -/
theorem stallInstr_eq : s.stallInstr i = !s.soc.bus.arbiter.oGrant.getLsbD 0 := by
  change (true && (!s.soc.bus.arbiter.oGrant.getLsbD 0 ||
    (Bus.decoded s.soc.bus (s.busIn i)).stallBus)) = _
  rw [decoded_stallBus, Bool.or_false, Bool.true_and]

/-- A turn of the other master. -/
theorem fetch_stalled (rst : i.iRst = false) (other : s.soc.bus.arbiter.oGrant.getLsbD 0 = false) :
    (next firmware period s i).fetch = ⟨Fetch.nop, s.fetch.pcCurrent, s.fetch.pcCurrent⟩ := by
  change Fetch.next s.fetch ⟨i.iRst, _, s.stallInstr i, s.stallInstr i, _, _⟩ = _
  rw [stallInstr_eq, other, rst]
  rfl

/-- A turn of the stage. -/
theorem fetch_granted (rst : i.iRst = false) (grant : s.soc.bus.arbiter.oGrant = 0b001#3) :
    (next firmware period s i).fetch = ⟨(Bus.decoded s.soc.bus (s.busIn i)).datInBus,
      s.fetch.pcCurrent + 4#32, s.fetch.pcCurrent⟩ := by
  have instr : Bus.datInInstr s.soc.bus (s.busIn i) =
      (Bus.decoded s.soc.bus (s.busIn i)).datInBus := if_pos grant
  change Fetch.next s.fetch ⟨i.iRst, _, s.stallInstr i, s.stallInstr i, _, _⟩ = _
  rw [stallInstr_eq, grant, rst, instr]
  rfl

end Cycle

/-! ## Runs -/

section Run

variable {board : Board} (rst : ∀ n, (board.input n).iRst = false)

theorem states_succ (n : ℕ) : board.states (n + 1) =
    next board.firmware board.period (board.states n) (board.input n) := rfl

include rst

/-- **The masters take turns.** -/
theorem turns_run (k : ℕ) :
    (board.states (2 * k + 1)).soc.bus.arbiter = ⟨0b001#3, 0b010#3, 0b010#3⟩ ∧
      (board.states (2 * k + 2)).soc.bus.arbiter = ⟨0b010#3, 0b001#3, 0b001#3⟩ := by
  have second {m : ℕ} (first : (board.states m).soc.bus.arbiter = ⟨0b001#3, 0b010#3, 0b010#3⟩) :
      (board.states (m + 1)).soc.bus.arbiter = ⟨0b010#3, 0b001#3, 0b001#3⟩ := by
    rw [states_succ, next_arbiter _ _ _ _ (rst m), first]
    decide
  induction k with
  | zero =>
    have first : (board.states 1).soc.bus.arbiter = ⟨0b001#3, 0b010#3, 0b010#3⟩ := by
      rw [states_succ, next_arbiter _ _ _ _ (rst 0)]
      change Arbiter.next (Arbiter.reset 3) _ = _
      decide
    exact ⟨first, second first⟩
  | succ k ih =>
    have first : (board.states (2 * (k + 1) + 1)).soc.bus.arbiter =
        ⟨0b001#3, 0b010#3, 0b010#3⟩ := by
      rw [show 2 * (k + 1) + 1 = 2 * k + 2 + 1 from rfl, states_succ, next_arbiter _ _ _ _ (rst _),
        ih.2]
      decide
    exact ⟨first, second first⟩

theorem grant_run (k : ℕ) : (board.states (2 * k + 1)).soc.bus.arbiter.oGrant = 0b010#3 ∧
    (board.states (2 * k + 2)).soc.bus.arbiter.oGrant = 0b001#3 :=
  ⟨congrArg Arbiter.State.oGrant (turns_run rst k).1,
    congrArg Arbiter.State.oGrant (turns_run rst k).2⟩

/-- Nothing is written to the memory. -/
theorem memory_run (n : ℕ) : (board.states n).soc.bus.ram.memory = ⟨board.ram, false⟩ := by
  induction n with
  | zero => rfl
  | succ n ih =>
    rw [states_succ, ← ih]
    exact Bus.memory_next (rst n)

/-- The stage goes on by four in each of its turns. -/
theorem pc_run (k : ℕ) : (board.states (2 * k + 1)).fetch.pcCurrent = BitVec.ofNat 32 (4 * k) ∧
    (board.states (2 * k + 2)).fetch =
      ⟨Fetch.nop, BitVec.ofNat 32 (4 * k), BitVec.ofNat 32 (4 * k)⟩ := by
  have second {k : ℕ}
      (first : (board.states (2 * k + 1)).fetch.pcCurrent = BitVec.ofNat 32 (4 * k)) :
      (board.states (2 * k + 2)).fetch =
        ⟨Fetch.nop, BitVec.ofNat 32 (4 * k), BitVec.ofNat 32 (4 * k)⟩ := by
    have other : (board.states (2 * k + 1)).soc.bus.arbiter.oGrant.getLsbD 0 = false := by
      rw [(grant_run rst k).1]
      decide
    rw [states_succ, fetch_stalled _ _ _ _ (rst _) other, first]
  induction k with
  | zero =>
    have first : (board.states (2 * 0 + 1)).fetch.pcCurrent = BitVec.ofNat 32 (4 * 0) := by
      have none : (board.states 0).soc.bus.arbiter.oGrant.getLsbD 0 = false := BitVec.getLsbD_zero
      rw [states_succ, fetch_stalled _ _ _ _ (rst _) none]
      rfl
    exact ⟨first, second first⟩
  | succ k ih =>
    have first : (board.states (2 * (k + 1) + 1)).fetch.pcCurrent =
        BitVec.ofNat 32 (4 * (k + 1)) := by
      rw [show 2 * (k + 1) + 1 = 2 * k + 2 + 1 from rfl, states_succ,
        fetch_granted _ _ _ _ (rst _) (grant_run rst k).2, ih.2, ← BitVec.ofNat_add]
      rfl
    exact ⟨first, second first⟩

/-- The address that the memory has kept of the stage's turn before. -/
theorem adrBsram_kept {k : ℕ} (inside : 4 * k < 128) :
    (board.states (2 * k + 1)).soc.bus.adrBsram = BitVec.ofNat 32 (4 * (k - 1)) := by
  cases k with
  | zero =>
    change (Bus.decoded (board.states 0).soc.bus
      ((board.states 0).busIn (board.input 0))).adrBsram = 0#32
    rw [decoded_adrBsram]
    rfl
  | succ k =>
    have below : BitVec.ofNat 32 (4 * k) < bsramSize := by
      rw [BitVec.lt_def, BitVec.toNat_ofNat, Nat.mod_eq_of_lt (by omega)]
      exact (by omega : 4 * k < 128)
    change (Bus.decoded (board.states (2 * k + 2)).soc.bus
      ((board.states (2 * k + 2)).busIn (board.input (2 * k + 2)))).adrBsram = _
    rw [decoded_adrBsram, (grant_run rst k).2, driven_instr, (pc_run rst k).2, if_pos below]
    rfl

/-- What the memory answers in a turn of the stage. -/
theorem oDat_run {k : ℕ} (inside : 4 * k < 128) : (board.states (2 * k + 2)).soc.bus.ram.oDat =
    board.word (if (board.input (2 * k + 1)).adrData < bsramSize then
      (board.input (2 * k + 1)).adrData else BitVec.ofNat 32 (4 * (k - 1))) := by
  have granted : (board.states (2 * k + 2)).soc.bus.arbiter.oGrant ≠ 0#3 := by
    rw [(grant_run rst k).2]
    decide
  have answers : Bus.Answers board.firmware (board.states (2 * k + 2)).soc.bus :=
    Bus.answers_next (board.states (2 * k + 1)).soc.bus _
  have address : (board.states (2 * k + 2)).soc.bus.adrBsram =
      (Bus.decoded (board.states (2 * k + 1)).soc.bus
        ((board.states (2 * k + 1)).busIn (board.input (2 * k + 1)))).adrBsram := rfl
  rw [answers granted, memory_run rst, address, decoded_adrBsram, (grant_run rst k).1, driven_data,
    adrBsram_kept rst inside]
  rfl

/-- What the stage latches in its turn. -/
theorem latched_run (k : ℕ) : (board.states (2 * k + 3)).fetch =
    ⟨(Bus.decoded (board.states (2 * k + 2)).soc.bus
        ((board.states (2 * k + 2)).busIn (board.input (2 * k + 2)))).datInBus,
      BitVec.ofNat 32 (4 * k) + 4#32, BitVec.ofNat 32 (4 * k)⟩ := by
  rw [states_succ, fetch_granted _ _ _ _ (rst _) (grant_run rst k).2, (pc_run rst k).2]

theorem driven_run (k : ℕ) : Bus.driven (board.states (2 * k + 2)).soc.bus.arbiter.oGrant
    ((board.states (2 * k + 2)).busIn (board.input (2 * k + 2))) =
      ⟨0#32, BitVec.ofNat 32 (4 * k), 0#4, true⟩ := by
  rw [(grant_run rst k).2, driven_instr, (pc_run rst k).2]

/-- What the stage reads in its turn. -/
theorem datInBus_run {k : ℕ} (wraps : k < 2 ^ 30) : (Bus.decoded
    (board.states (2 * k + 2)).soc.bus
      ((board.states (2 * k + 2)).busIn (board.input (2 * k + 2)))).datInBus =
    if 4 * k < 128 then
      board.word (if (board.input (2 * k + 1)).adrData < bsramSize then
        (board.input (2 * k + 1)).adrData else BitVec.ofNat 32 (4 * (k - 1)))
    else if 4 * k = 2 ^ 31 then
      if (board.states (2 * k + 2)).soc.uart.rx.oDataReady then
        (board.states (2 * k + 2)).soc.uart.rx.oDat.setWidth 32
      else uartFault
    else 0#32 := by
  have driven := driven_run rst k
  have small : 4 * k % 2 ^ 32 = 4 * k := Nat.mod_eq_of_lt (by omega)
  have inside : BitVec.ofNat 32 (4 * k) < bsramSize ↔ 4 * k < 128 := by
    rw [BitVec.lt_def, BitVec.toNat_ofNat, small]
    rfl
  have port : BitVec.ofNat 32 (4 * k) = uartAdr ↔ 4 * k = 2 ^ 31 := by
    rw [← BitVec.toNat_inj, BitVec.toNat_ofNat, small]
    rfl
  rw [decoded_datInBus _ _ (congrArg Bus.Driven.weBus driven), driven]
  dsimp only
  rw [if_congr inside rfl (if_congr port rfl rfl)]
  by_cases below : 4 * k < 128
  · rw [if_pos below, if_pos below, oDat_run rst below]
  · rw [if_neg below, if_neg below]
    rfl

/-- **What the processor fetches.** The stage has its turn in every other cycle, and presents a NOP
behind the turns of the data port. In its turn `k` it is at address `4 * k`. As long as that is in
the memory, what it latches is the word before, with that word's address plus four (in turn 0 it is
the word at 0); but if the address of the data port, which has had the turn in between, is one of
the memory's, it is the word at that address. Behind the memory it latches zeros, and at `UART_ADR`
what the serial port has received. -/
theorem program_fetched {k : ℕ} (wraps : k < 2 ^ 30) :
    (board.states (2 * k + 2)).fetch.oInstr = Fetch.nop ∧
    (board.states (2 * k + 3)).fetch.pcFetchedPlus4 = BitVec.ofNat 32 (4 * k) ∧
    (board.states (2 * k + 3)).fetch.oInstr =
      if 4 * k < 128 then
        board.word (if (board.input (2 * k + 1)).adrData < bsramSize then
          (board.input (2 * k + 1)).adrData else BitVec.ofNat 32 (4 * (k - 1)))
      else if 4 * k = 2 ^ 31 then
        if (board.states (2 * k + 2)).soc.uart.rx.oDataReady then
          (board.states (2 * k + 2)).soc.uart.rx.oDat.setWidth 32
        else uartFault
      else 0#32 := by
  have stage := (pc_run rst k).2
  have latched := latched_run rst k
  refine ⟨congrArg Fetch.State.oInstr stage, congrArg Fetch.State.pcFetchedPlus4 latched, ?_⟩
  rw [latched]
  exact datInBus_run rst wraps

end Run

/-- Words that tell addresses apart, and a data port at an address of no memory. -/
def apart : Board :=
  ⟨some, 0#17, fun _ => 0#32, 0#32, fun _ => ⟨false, 0x1000#32, 0#4, 0#32, 0#32, true⟩⟩

theorem program_fetched_second : (apart.states 6).fetch.oInstr = Fetch.nop ∧
    (apart.states 7).fetch.pcFetchedPlus4 = 8#32 ∧ (apart.states 7).fetch.oInstr = 4#32 := by
  have fetched := program_fetched (fun n => (rfl : (apart.input n).iRst = false))
    (by decide : 2 < 2 ^ 30)
  exact fetched

end Teres.Rtl.Cpu
