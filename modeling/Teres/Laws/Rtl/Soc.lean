import Teres.Laws.Rtl.UartGated
import Teres.Rtl.Soc

/-!
# Two SoCs on a serial line

The programs of two SoCs write to and read from `UART_ADR` over their buses. Whatever the first one
writes, and whenever, what its port takes is what the second one reads, in order, once and in time,
as long as the second one reads the port once in every twelve bit times (`soc_link`).
-/

namespace Teres.Rtl.Soc

open Uart

variable {period : BitVec 17}

/-! ## One cycle -/

/-- What the decoder drives when the port is not addressed. -/
theorem decoded_other {s : State} {i : In} (other : (s.driven i).adrBus ≠ Bus.uartAdr) :
    (s.uartIn i).iStb = false := by
  change (Bus.decoded s.bus (s.busIn i)).uartStb = false
  unfold Bus.decoded
  change ((s.driven i).adrBus ≠ Bus.uartAdr) at other
  dsimp only
  split
  · rfl
  · exact congrArg Bus.Decoded.uartStb (if_neg other)

/-- What it drives when the port is written. -/
theorem decoded_writes {s : State} {i : In} (port : (s.driven i).adrBus = Bus.uartAdr)
    (write : (s.driven i).weBus ≠ 0#4) :
    (s.uartIn i).strobe = (if s.uart.tx.oBusyWrite then none
      else some ((s.driven i).datOutBus.setWidth 8)) ∧
    ((s.uartIn i).iStb && !(s.uartIn i).iWe) = false := by
  have whole : Bus.decoded s.bus (s.busIn i) =
      if !s.uart.tx.oBusyWrite then
        ⟨0#32, false, 0#4, false, s.bus.adrBsram, true, true, (s.driven i).datOutBus.setWidth 8⟩
      else ⟨0#32, false, 0#4, false, s.bus.adrBsram, false, false, 32#8⟩ := by
    unfold Bus.decoded
    dsimp only
    change (s.driven i).adrBus = _ at port
    rw [show (Bus.driven s.bus.arbiter.oGrant (s.busIn i)) = s.driven i from rfl, port,
      if_neg (by decide), if_pos rfl, if_pos write]
    rfl
  unfold State.uartIn Uart.In.strobe
  dsimp only
  rw [whole]
  cases s.uart.tx.oBusyWrite <;> exact ⟨rfl, rfl⟩

/-- What it drives when the port is read. -/
theorem decoded_reads {s : State} {i : In} (port : (s.driven i).adrBus = Bus.uartAdr)
    (read : (s.driven i).weBus = 0#4) :
    (s.uartIn i).iStb = s.uart.rx.oDataReady ∧ (s.uartIn i).iWe = false ∧
      s.word i = if s.uart.rx.oDataReady then s.uart.rx.oDat.setWidth 32 else Bus.uartFault := by
  have whole : Bus.decoded s.bus (s.busIn i) =
      if s.uart.rx.oDataReady then
        ⟨s.uart.rx.oDat.setWidth 32, false, 0#4, false, s.bus.adrBsram, false, true, 32#8⟩
      else ⟨Bus.uartFault, false, 0#4, false, s.bus.adrBsram, false, false, 32#8⟩ := by
    unfold Bus.decoded
    dsimp only
    rw [show (Bus.driven s.bus.arbiter.oGrant (s.busIn i)) = s.driven i from rfl, port,
      if_neg (by decide), if_pos rfl, if_neg (not_not_intro read)]
    rfl
  unfold State.uartIn State.word
  dsimp only
  rw [whole]
  cases s.uart.rx.oDataReady <;> exact ⟨rfl, rfl, rfl⟩

/-- **The gate**: a write is strobed if `O_busy_write` is low. -/
theorem strobe_eq (s : State) (i : In) :
    (s.uartIn i).strobe = if s.uart.tx.oBusyWrite then none else s.writes i := by
  by_cases writes : (s.driven i).adrBus = Bus.uartAdr ∧ (s.driven i).weBus ≠ 0#4
  · rw [(decoded_writes writes.1 writes.2).1, State.writes, if_pos writes]
  · have low : ((s.uartIn i).iStb && (s.uartIn i).iWe) = false := by
      by_cases port : (s.driven i).adrBus = Bus.uartAdr
      · have read : (s.driven i).weBus = 0#4 := by_contra fun write => writes ⟨port, write⟩
        rw [(decoded_reads port read).2.1, Bool.and_false]
      · rw [decoded_other port, Bool.false_and]
    rw [State.writes, if_neg writes, ite_self, Uart.In.strobe, low]
    rfl

/-- The port is read if it is addressed for it and has a byte. -/
theorem polls_eq (s : State) (i : In) : ((s.uartIn i).iStb && !(s.uartIn i).iWe) =
    (s.reads i && s.uart.rx.oDataReady) := by
  unfold State.reads
  by_cases port : (s.driven i).adrBus = Bus.uartAdr
  · rw [port, beq_self_eq_true, Bool.true_and]
    by_cases read : (s.driven i).weBus = 0#4
    · obtain ⟨strobe, low, -⟩ := decoded_reads port read
      rw [strobe, low, read, beq_self_eq_true, Bool.not_false, Bool.and_true, Bool.true_and]
    · rw [(decoded_writes port read).2, beq_false_of_ne read, Bool.false_and]
  · rw [decoded_other port, beq_false_of_ne port]
    rfl

/-- **What a program reads**: the byte, or `UART_FAULT`. -/
theorem word_eq {s : State} {i : In} (reads : s.reads i = true) :
    s.word i = if s.uart.rx.oDataReady then s.uart.rx.oDat.setWidth 32 else Bus.uartFault := by
  rw [State.reads, Bool.and_eq_true, beq_iff_eq, beq_iff_eq] at reads
  exact (decoded_reads reads.1 reads.2).2.2

/-- No byte is `UART_FAULT`. -/
theorem byte_ne_fault (b : BitVec 8) : b.setWidth 32 ≠ Bus.uartFault := by
  intro same
  have value := congrArg BitVec.toNat same
  have small := b.isLt
  rw [BitVec.toNat_setWidth, Bus.uartFault, BitVec.toNat_ofNat] at value
  omega

/-! ## Runs -/

section Run

variable (period) (board : Board)

/-- What the serial port sees in a run. -/
def Board.port (n : ℕ) : Uart.In := (board.states period n).uartIn (board.input n)

/-- The port of a SoC runs by itself. -/
theorem uart_run (n : ℕ) :
    (board.states period n).uart = Uart.states period (board.port period) n := by
  induction n with
  | zero => rfl
  | succ n ih =>
    have step : (board.states period (n + 1)).uart =
        Uart.next period (board.states period n).uart (board.port period n) := rfl
    rw [step, ih]
    rfl

/-- The bytes that the port takes before cycle `n`, of those that are written. -/
def Board.sent : ℕ → List (BitVec 8) :=
  takenBytes (bitTime period) fun n => (board.states period n).writes (board.input n)

/-- The bytes that are written to the port before cycle `n`. -/
def Board.written : ℕ → List (BitVec 8) :=
  Clocked.ledger fun n => ((board.states period n).writes (board.input n)).toList

/-- The words other than `UART_FAULT` that are read from the port before cycle `n`. -/
def Board.heard : ℕ → List (BitVec 32) :=
  Clocked.ledger fun n =>
    if (board.states period n).reads (board.input n) ∧
        (board.states period n).word (board.input n) ≠ Bus.uartFault then
      [(board.states period n).word (board.input n)]
    else []

theorem port_rx (n : ℕ) :
    rxStates period (board.port period) n = (board.states period n).uart.rx := by
  rw [uart_run]
  rfl

/-- The port's reads are the program's. -/
theorem port_reads (rst : ∀ n, (board.input n).iRst = false) (n : ℕ) :
    (rxStates period (board.port period) n).reads (board.port period n) =
      ((board.states period n).reads (board.input n) &&
        (board.states period n).uart.rx.oDataReady) := by
  have released : (board.port period n).iRst = false := rst n
  rw [Rx.reads, released, port_rx, Bool.not_false, Bool.true_and]
  have polls := polls_eq (board.states period n) (board.input n)
  rw [← Board.port] at polls
  rw [polls, Bool.and_assoc, Bool.and_self]

/-- What is heard are the bytes read. -/
theorem heard_eq (rst : ∀ n, (board.input n).iRst = false) (n : ℕ) :
    board.heard period n = (bytesRead period (board.port period) n).map (·.setWidth 32) := by
  induction n with
  | zero => rfl
  | succ n ih =>
    rw [Board.heard, bytesRead, Clocked.ledger_succ, Clocked.ledger_succ, ← Board.heard,
      ← bytesRead, ih, List.map_append, port_reads period board rst, port_rx]
    congr 1
    cases reads : (board.states period n).reads (board.input n) with
    | false => rfl
    | true =>
      rw [word_eq reads]
      cases (board.states period n).uart.rx.oDataReady with
      | false => rfl
      | true =>
        rw [if_pos ⟨rfl, byte_ne_fault _⟩]
        rfl

end Run

/-- No two writes are within twelve bit times, and there is none in cycle 0. -/
def Board.Paced (period : BitVec 17) (board : Board) : Prop :=
  (∀ v n, ((board.states period v).writes (board.input v)).isSome = true →
    ((board.states period n).writes (board.input n)).isSome = true → v < n →
      v + 12 * bitTime period < n) ∧
    (board.states period 0).writes (board.input 0) = none

theorem Board.Paced.taken {board : Board} (paced : board.Paced period) (n : ℕ) :
    Uart.taken (bitTime period) (fun n => (board.states period n).writes (board.input n)) n =
      (board.states period n).writes (board.input n) :=
  taken_paced paced.1 paced.2 n

/-- **A serial line between two programs.** Two SoCs of one period of at least four cycles, the line
of the first on the input of the second, with any firmware and masters that write and read as they
like. If the second one reads `UART_ADR` in every twelve bit times, then the words it finds there
are, before any cycle, a prefix of the bytes that the first one's port took, and a byte is found at
most twenty-four bit times after it was taken. The port takes each write that comes more than twelve
bit times after the last one it took, and so all of them if no two are closer. -/
theorem soc_link (clockHz baudrate : ℕ) (four : 4 ≤ (Uart.period clockHz baudrate).toNat)
    (a b : Board) (rst : ∀ n, (a.input n).iRst = false) (rst' : ∀ n, (b.input n).iRst = false)
    (wire : ∀ n, (b.input n).iUartRx =
      (a.states (Uart.period clockHz baudrate) n).uart.tx.oOutPin)
    (polls : ∀ m, ∃ k, m ≤ k ∧ k < m + 12 * bitTime (Uart.period clockHz baudrate) ∧
      (b.states (Uart.period clockHz baudrate) k).reads (b.input k) = true) (n : ℕ) :
    b.heard (Uart.period clockHz baudrate) n <+:
        (a.sent (Uart.period clockHz baudrate) n).map (·.setWidth 32) ∧
      (∀ m, m + 24 * bitTime (Uart.period clockHz baudrate) ≤ n →
        (a.sent (Uart.period clockHz baudrate) m).map (·.setWidth 32) <+:
          b.heard (Uart.period clockHz baudrate) n) ∧
      (a.Paced (Uart.period clockHz baudrate) →
        a.sent (Uart.period clockHz baudrate) n = a.written (Uart.period clockHz baudrate) n) := by
  generalize Uart.period clockHz baudrate = period at *
  have gated (n : ℕ) : (a.port period n).strobe =
      if (Uart.states period (a.port period) n).tx.oBusyWrite then none
      else (a.states period n).writes (a.input n) := by
    rw [← uart_run]
    exact strobe_eq (a.states period n) (a.input n)
  have connected (n : ℕ) : (b.port period n).iInPin =
      (Uart.states period (a.port period) n).tx.oOutPin := by
    rw [← uart_run]
    exact wire n
  have polled (m : ℕ) : ∃ k, m ≤ k ∧ k < m + 12 * bitTime period ∧
      ((rxStates period (b.port period) k).oDataReady = true →
        (rxStates period (b.port period) k).reads (b.port period k) = true) := by
    obtain ⟨k, low, high, reads⟩ := polls m
    refine ⟨k, low, high, fun ready => ?_⟩
    rw [port_rx] at ready
    rw [port_reads period b rst', reads, ready]
    rfl
  have link := gated_link four rst rst' gated connected polled n
  rw [heard_eq period b rst']
  refine ⟨link.1.map _, fun m late => (link.2 m late).map _, fun paced => ?_⟩
  exact congrArg (Clocked.ledger · n) (funext fun n => congrArg Option.toList (paced.taken n))

/-! ## A byte on the line -/

/-- A SoC whose data master is at the port in every cycle. -/
def atPort (weData : ℕ → BitVec 4) (iUartRx : ℕ → Bool) : Board where
  firmware := fun _ => none
  ram := fun _ => 0#32
  input := fun n => ⟨false, 0#32, false, Bus.uartAdr, weData n, 0x55#32, true, 0#32, iUartRx n⟩

/-- It is granted from cycle 1 on. -/
theorem atPort_granted (weData : ℕ → BitVec 4) (iUartRx : ℕ → Bool) (period : BitVec 17) (n : ℕ) :
    ((atPort weData iUartRx).states period (n + 1)).bus.arbiter.oGrant = 2#3 := by
  have free (s : Bus.State) (i : Bus.In) : (Bus.decoded s i).stallBus = false := by
    unfold Bus.decoded
    dsimp only
    split_ifs <;> rfl
  have step (n : ℕ) : ((atPort weData iUartRx).states period (n + 1)).bus.arbiter =
      Arbiter.next ((atPort weData iUartRx).states period n).bus.arbiter ⟨false, false, 2#3⟩ := by
    let s := (atPort weData iUartRx).states period n
    let i := s.busIn ((atPort weData iUartRx).input n)
    have edge : ((atPort weData iUartRx).states period (n + 1)).bus.arbiter =
        Arbiter.next s.bus.arbiter ⟨false, (Bus.decoded s.bus i).stallBus, Bus.request i⟩ := rfl
    have asks : Bus.request i = 2#3 := (by decide : 0#1 ++ BitVec.ofBool true ++
      BitVec.ofBool false = 2#3)
    rw [edge, free, asks]
  have kept : ((atPort weData iUartRx).states period (n + 1)).bus.arbiter ∈
      [(⟨1#3, 2#3, 2#3⟩ : Arbiter.State 3), ⟨2#3, 2#3, 2#3⟩] := by
    induction n with
    | zero =>
      rw [step]
      exact (by decide : Arbiter.next (Arbiter.reset 3) ⟨false, false, 2#3⟩ ∈
        [(⟨1#3, 2#3, 2#3⟩ : Arbiter.State 3), ⟨2#3, 2#3, 2#3⟩])
    | succ n ih =>
      rw [step]
      revert ih
      generalize ((atPort weData iUartRx).states period (n + 1)).bus.arbiter = s
      rw [List.mem_pair]
      rintro (rfl | rfl) <;> decide
  rcases List.mem_pair.1 kept with same | same <;> rw [same]

/-- A byte is written in cycle 2. -/
def once (n : ℕ) : BitVec 4 := if n = 2 then 1#4 else 0#4

/-- The line that carries it. -/
def onceLine (n : ℕ) : Bool :=
  ((atPort once fun _ => true).states (Uart.period 4 1) n).uart.tx.oOutPin

/-- With a period of four the byte is heard by cycle 125. -/
theorem soc_link_once :
    ((atPort once fun _ => true).sent (Uart.period 4 1) 5).map (·.setWidth 32) <+:
      (atPort (fun _ => 0#4) onceLine).heard (Uart.period 4 1) 125 := by
  refine (soc_link 4 1 (by decide) (atPort once fun _ => true) (atPort (fun _ => 0#4) onceLine)
    (fun _ => rfl) (fun _ => rfl) (fun _ => rfl) (fun m => ⟨m + 1, by omega, ?_, ?_⟩)
    125).2.1 5 (by decide)
  · have long : bitTime (Uart.period 4 1) = 5 := rfl
    omega
  · rw [State.reads, State.driven, atPort_granted]
    rfl

end Teres.Rtl.Soc
