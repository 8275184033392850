import Teres.Laws.Rtl.Arbiter
import Teres.Rtl.Bus

/-!
# What the masters of the bus receive

In a granted cycle the memory's output is the word at the address that the memory had in the cycle
before, when the other master, or none, drove the bus (`answers_run`). The byte lanes of a write
never reach the memory (`memory_next`). So an access is one access to one memory only where the word
of the cycle before is the same and where the write changes nothing (`atomic_iff`).
-/

namespace Teres.Rtl.Bus

variable {firmware : BitVec 32 → Option (BitVec 32)}

/-! ## What the decoder drives -/

theorem decoded_weBsram (s : State) (i : In) : (decoded s i).weBsram = 0#4 := by
  unfold decoded
  dsimp only
  split_ifs <;> rfl

/-- At an address of the memory, the memory's output is on the bus. -/
theorem decoded_inside {s : State} {i : In}
    (inside : (driven s.arbiter.oGrant i).adrBus < bsramSize) :
    (decoded s i).datInBus = s.ram.oDat := by
  unfold decoded
  dsimp only
  rw [if_pos inside]

/-- **Nothing is ever written** to the memory. -/
theorem memory_next {s : State} {i : In} (rst : i.iRst = false) :
    (next firmware s i).ram.memory = s.ram.memory := by
  have none : ¬ ((decoded s i).stbBsram = true ∧ (decoded s i).weBsram ≠ 0#4) :=
    fun h => h.2 (decoded_weBsram s i)
  change (s.ram.next firmware i.iRst _ _ _ _).memory = _
  unfold Ram.next
  rw [rst, if_neg Bool.false_ne_true, if_neg none]

/-! ## What the memory answers -/

/-- Where something is granted, the memory's output is the word at the address of the cycle
before. -/
def Answers (firmware : BitVec 32 → Option (BitVec 32)) (s : State) : Prop :=
  s.arbiter.oGrant ≠ 0#3 → s.ram.oDat = s.ram.memory.word firmware s.adrBsram

/-- **One clock edge** brings the word of its own cycle's address. -/
theorem answers_next (s : State) (i : In) : Answers firmware (next firmware s i) := by
  intro granted
  cases rst : i.iRst with
  | true =>
    refine absurd ?_ granted
    change (Arbiter.next s.arbiter ⟨i.iRst, _, _⟩).oGrant = 0#3
    unfold Arbiter.next
    rw [rst]
    rfl
  | false =>
    rw [memory_next rst]
    change (s.ram.next firmware i.iRst _ _ _ _).oDat =
      s.ram.memory.word firmware (decoded s i).adrBsram
    unfold Ram.next
    rw [rst, if_neg Bool.false_ne_true]

section Run

variable (ram : BitVec 30 → BitVec 32) (input : ℕ → In)

/-- **In every run** the memory answers with the word of the cycle before. -/
theorem answers_run : ∀ n, Answers firmware (states firmware ram input n)
  | 0 => fun granted => absurd rfl granted
  | n + 1 => answers_next (states firmware ram input n) (input n)

/-- What the arbiter is asked at each edge. -/
def asked (firmware : BitVec 32 → Option (BitVec 32)) (n : ℕ) : Arbiter.In 3 :=
  ⟨(input n).iRst, (decoded (states firmware ram input n) (input n)).stallBus, request (input n)⟩

/-- The arbiter on the bus is the arbiter. -/
theorem arbiter_run : ∀ n,
    (states firmware ram input n).arbiter = Arbiter.states (asked ram input firmware) n
  | 0 => rfl
  | n + 1 => by
    change Arbiter.next (states firmware ram input n).arbiter _ = Arbiter.next _ _
    rw [arbiter_run n]
    rfl

/-- A grant of one bit is that bit alone. -/
theorem grant_eq {grant : BitVec 3} (one : Arbiter.AtMostOne grant) {k : ℕ}
    (set : grant.getLsbD k = true) : grant = BitVec.twoPow 3 k := by
  apply BitVec.eq_of_getLsbD_eq
  intro j hj
  have inside : k < 3 := BitVec.lt_of_getLsbD set
  rw [BitVec.getLsbD_twoPow, decide_eq_true inside, Bool.true_and]
  by_cases same : k = j
  · rw [← same, set, decide_eq_true rfl]
  · rw [decide_eq_false same]
    exact Bool.eq_false_of_not_eq_true fun other => same (one k j set other)

/-- What an access receives is the memory's output. -/
theorem access_datIn {n : ℕ} {m : Master}
    (access : Accesses (states firmware ram input n) (input n) m) :
    m.datIn (states firmware ram input n) (input n) = (states firmware ram input n).ram.oDat := by
  have one : Arbiter.AtMostOne (states firmware ram input n).arbiter.oGrant := by
    rw [arbiter_run]
    exact Arbiter.atMostOne_run _ (by decide) n
  have grant := grant_eq one access.granted
  have inside := access.inside
  cases m with
  | instr =>
    have drives : (driven (states firmware ram input n).arbiter.oGrant (input n)).adrBus =
        (input n).adrInstr := by
      rw [grant]
      rfl
    change datInInstr _ _ = _
    unfold datInInstr
    rw [grant]
    exact (if_pos rfl).trans (decoded_inside (drives ▸ inside))
  | data =>
    have drives : (driven (states firmware ram input n).arbiter.oGrant (input n)).adrBus =
        (input n).adrData := by
      rw [grant]
      rfl
    change datInData _ _ = _
    unfold datInData
    rw [grant]
    exact (if_pos rfl).trans (decoded_inside (drives ▸ inside))

/-- **The bus is one memory** in a cycle if and only if the memory had an address with the same word
in the cycle before a read, and a write writes what is there. -/
theorem atomic_iff (n : ℕ) : Atomic firmware (states firmware ram input n) (input n) ↔
    Agrees firmware (states firmware ram input n) (input n) := by
  have answer : ∀ m, Accesses (states firmware ram input n) (input n) m →
      m.datIn (states firmware ram input n) (input n) =
        (states firmware ram input n).ram.memory.word firmware
          (states firmware ram input n).adrBsram := fun m access => by
    rw [access_datIn ram input access]
    refine answers_run ram input n fun zero => ?_
    have set := access.granted
    rw [zero] at set
    exact nomatch set.symm.trans BitVec.getLsbD_zero
  constructor
  · rintro ⟨reads, writes, _⟩
    refine ⟨fun m access read => ?_, fun write => ?_⟩
    · rw [← answer m access]
      exact reads m access read
    · rw [← writes write]
      exact memory_next write.1.rst
  · rintro ⟨reads, writes⟩
    refine ⟨fun m access read => ?_, fun write => ?_, fun rst _ => memory_next rst⟩
    · rw [answer m access]
      exact reads m access read
    · rw [writes write]
      exact memory_next write.1.rst

end Run

/-- The instruction master reads at address 0 and the data master at address 4, all the time. -/
def reading (_ : ℕ) : In :=
  ⟨false, 0#32, true, 4#32, 0#4, 0#32, true, 0#32, false, false, 0#8⟩

/-- Words that tell addresses apart. -/
def numbered (iAdr : BitVec 32) : Option (BitVec 32) := some iAdr

/-- In cycle 2 the instruction master is granted at address 0, and it receives the word of address
4, in that cycle and in the next. -/
theorem other_word : Accesses (states numbered (fun _ => 0#32) reading 2) (reading 2) .instr ∧
    datInInstr (states numbered (fun _ => 0#32) reading 2) (reading 2) = 4#32 ∧
    datInInstr (states numbered (fun _ => 0#32) reading 3) (reading 3) = 4#32 ∧
    ¬ Atomic numbered (states numbered (fun _ => 0#32) reading 2) (reading 2) := by
  have access : Accesses (states numbered (fun _ => 0#32) reading 2) (reading 2) .instr :=
    ⟨rfl, rfl, by decide, by decide, by decide⟩
  have received : datInInstr (states numbered (fun _ => 0#32) reading 2) (reading 2) = 4#32 := by
    decide
  refine ⟨access, received, by decide, fun atomic => ?_⟩
  have own : (4#32 : BitVec 32) = 0#32 := received.symm.trans (atomic.reads .instr access rfl)
  exact absurd own (by decide)

end Teres.Rtl.Bus
