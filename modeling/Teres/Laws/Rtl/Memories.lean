import Teres.Rtl.InstrMem

/-!
# What the memory modules return

Both modules store the same bytes: a byte lane of a word holds what was written to it last
(`held_run`), whether or not the firmware covers the word meanwhile. They differ in when the cover
is taken away. `c5_ram` takes it away at any write to address 0 (`c5Ram_initialized`),
`c5_instr_mem` only at one with the lowest byte lane (`c5InstrMem_initialized`). Between a write of
the one kind and a write of the other, the two return different words wherever the firmware has an
entry that is not the stored word (`agree_iff`).
-/

namespace Teres.Rtl.Memories

open Bus

variable {firmware : Firmware}

/-! ## Lanes -/

/-- A word put together from four bytes. -/
theorem extract_bytes (b : ℕ → BitVec 8) {l : ℕ} (hl : l < 4) :
    (b 3 ++ b 2 ++ b 1 ++ b 0).extractLsb' (8 * l) 8 = b l := by
  apply BitVec.eq_of_getLsbD_eq
  intro j hj
  rw [BitVec.getLsbD_extractLsb', BitVec.getLsbD_append, BitVec.getLsbD_append,
    BitVec.getLsbD_append]
  obtain rfl | rfl | rfl | rfl : l = 0 ∨ l = 1 ∨ l = 2 ∨ l = 3 := by omega
  · simp [hj]
  · simp [hj]
  · have place : 16 + j - 8 = 8 + j := by omega
    have past : ¬ 16 + j < 8 := by omega
    simp [hj, place, past]
  · have place : 24 + j - 8 = 16 + j := by omega
    have place' : 16 + j - 8 = 8 + j := by omega
    have past : ¬ 24 + j < 8 := by omega
    have past' : ¬ 16 + j < 8 := by omega
    simp [hj, place, place', past, past']

/-- A masked write replaces the enabled lanes. -/
theorem lane_lanes (we : BitVec 4) (dat word : BitVec 32) {l : ℕ} (hl : l < 4) :
    lane l (lanes we dat word) = if we.getLsbD l then lane l dat else lane l word :=
  extract_bytes (fun k => if we.getLsbD k then lane k dat else lane k word) hl

/-- A word is its four lanes. -/
theorem eq_of_lanes {v w : BitVec 32} (same : ∀ l < 4, lane l v = lane l w) : v = w := by
  apply BitVec.eq_of_getLsbD_eq
  intro k hk
  have byte := congrArg (BitVec.getLsbD · (k % 8)) (same (k / 8) (by omega))
  have place : 8 * (k / 8) + k % 8 = k := Nat.div_add_mod k 8
  have low : k % 8 < 8 := Nat.mod_lt k (by decide)
  simpa only [lane, BitVec.getLsbD_extractLsb', low, decide_true, Bool.true_and, place] using byte

/-! ## What is stored -/

/-- The array after an access. -/
def stored (ram : BitVec 30 → BitVec 32) (i : MemoryIn) : BitVec 30 → BitVec 32 :=
  if Writes i then
    Function.update ram (wordIndex i.iAdr) (lanes i.iWe i.iDat (ram (wordIndex i.iAdr)))
  else ram

theorem writes_iff (i : MemoryIn) :
    Writes i ↔ ¬ i.iRst = true ∧ i.iStb = true ∧ i.iWe ≠ 0#4 := by
  rw [Writes, Bool.not_eq_true]

theorem c5Ram_ram (r : Ram) (i : MemoryIn) :
    (c5Ram firmware r i).memory.ram = stored r.memory.ram i := by
  unfold c5Ram Ram.next stored
  by_cases rst : i.iRst = true
  · simp [writes_iff, rst]
  · by_cases writes : i.iStb = true ∧ i.iWe ≠ 0#4
    · rw [if_neg rst, if_pos writes, if_pos ((writes_iff i).mpr ⟨rst, writes⟩)]
      rfl
    · rw [if_neg rst, if_neg writes, if_neg fun h => writes h.2]

theorem c5InstrMem_ram (r : Ram) (i : MemoryIn) :
    (c5InstrMem firmware r i).memory.ram = stored r.memory.ram i := by
  unfold c5InstrMem stored
  by_cases rst : i.iRst = true
  · simp [writes_iff, rst]
  · by_cases writes : i.iStb = true ∧ i.iWe ≠ 0#4
    · rw [if_neg rst, if_pos writes, if_pos ((writes_iff i).mpr ⟨rst, writes⟩)]
    · rw [if_neg rst, if_neg writes, if_neg fun h => writes h.2]

/-- An access puts the byte that it writes into its lane. -/
theorem lane_stored (ram : BitVec 30 → BitVec 32) (i : MemoryIn) (word : BitVec 30) {l : ℕ}
    (hl : l < 4) : lane l (stored ram i word) =
      (laneWritten word l i).getD (lane l (ram word)) := by
  unfold stored laneWritten
  by_cases writes : Writes i
  · by_cases here : wordIndex i.iAdr = word
    · subst here
      rw [if_pos writes, Function.update_self, lane_lanes _ _ _ hl]
      cases enabled : i.iWe.getLsbD l <;> simp [writes]
    · rw [if_pos writes, Function.update_of_ne (Ne.symm here)]
      simp [here]
  · simp [writes]

/-- **A lane holds the byte written to it last**, in any machine that stores as both modules do. -/
theorem held_run {step : Ram → MemoryIn → Ram}
    (stores : ∀ r i, (step r i).memory.ram = stored r.memory.ram i) (r : Ram)
    (input : ℕ → MemoryIn) (word : BitVec 30) {l : ℕ} (hl : l < 4) (n : ℕ) :
    Clocked.Held (laneWritten word l) (lane l (r.memory.ram word)) input n
      (lane l ((Clocked.run step r input n).memory.ram word)) := by
  induction n with
  | zero => exact Clocked.held_zero _ _ _
  | succ n ih =>
    rw [Clocked.run_succ, stores, lane_stored _ _ _ hl]
    exact Clocked.held_succ ih

/-- The two modules store the same. -/
theorem ram_same (ram : BitVec 30 → BitVec 32) (o o' : BitVec 32) (input : ℕ → MemoryIn) (n : ℕ) :
    (Clocked.run (c5InstrMem firmware) (powerUp ram o) input n).memory.ram =
      (Clocked.run (c5Ram firmware) (powerUp ram o') input n).memory.ram := by
  induction n with
  | zero => rfl
  | succ n ih => rw [Clocked.run_succ, Clocked.run_succ, c5InstrMem_ram, c5Ram_ram, ih]

/-! ## The cover -/

section Cover

variable (ram : BitVec 30 → BitVec 32) (o : BitVec 32) (input : ℕ → MemoryIn)

/-- A flag that a reset clears and an access sets. -/
theorem sticky_run {step : Ram → MemoryIn → Ram} {set : MemoryIn → Prop}
    (flag : ∀ r i, (step r i).memory.initialized = true ↔
      ¬ i.iRst = true ∧ (set i ∨ r.memory.initialized = true)) (n : ℕ) :
    (Clocked.run step (powerUp ram o) input n).memory.initialized = true ↔
      Clocked.Since (fun i => i.iRst = true) set input n := by
  induction n with
  | zero => simp [powerUp, Clocked.since_zero]
  | succ n ih => rw [Clocked.run_succ, flag, ih, Clocked.since_succ]

/-- `c5_ram` uncovers its contents at any write to address 0. -/
theorem c5Ram_initialized (n : ℕ) :
    (Clocked.run (c5Ram firmware) (powerUp ram o) input n).memory.initialized = true ↔
      ZeroWritten input n := by
  apply sticky_run
  intro r i
  unfold c5Ram Ram.next
  by_cases rst : i.iRst = true
  · simp [rst]
  · by_cases writes : i.iStb = true ∧ i.iWe ≠ 0#4
    · simp [writes_iff, rst, writes, Memory.write, or_comm]
    · rw [if_neg rst, if_neg writes, writes_iff]
      tauto

/-- `c5_instr_mem` uncovers its contents at a write to address 0 with the lowest byte lane. -/
theorem c5InstrMem_initialized (n : ℕ) :
    (Clocked.run (c5InstrMem firmware) (powerUp ram o) input n).memory.initialized = true ↔
      ZeroLaneWritten input n := by
  apply sticky_run
  intro r i
  unfold c5InstrMem
  by_cases rst : i.iRst = true
  · simp [rst]
  · by_cases writes : i.iStb = true ∧ i.iWe ≠ 0#4
    · rw [if_neg rst, if_pos writes]
      cases low : i.iWe.getLsbD 0 <;> by_cases zero : i.iAdr = 0#32 <;>
        simp [writes_iff, rst, writes, zero]
    · rw [if_neg rst, if_neg writes, writes_iff]
      tauto

/-- A write with the lowest lane is a write. -/
theorem zeroWritten_of_lane {input : ℕ → MemoryIn} {n : ℕ} :
    ZeroLaneWritten input n → ZeroWritten input n := by
  rintro ⟨m, hm, ⟨writes, zero, -⟩, kept⟩
  exact ⟨m, hm, ⟨writes, zero⟩, kept⟩

end Cover

/-! ## What is returned -/

theorem c5Ram_oDat {r : Ram} {i : MemoryIn} (rst : i.iRst = false) :
    (c5Ram firmware r i).oDat = r.memory.word firmware i.iAdr := by
  unfold c5Ram Ram.next
  rw [rst, if_neg Bool.false_ne_true]

theorem c5InstrMem_oDat {r : Ram} {i : MemoryIn} (rst : i.iRst = false) :
    (c5InstrMem firmware r i).oDat = r.memory.word firmware i.iAdr := by
  unfold c5InstrMem
  rw [rst, if_neg Bool.false_ne_true]

/-- Without a cover a memory returns what it stores. -/
theorem word_uncovered {m : Memory} {iAdr : BitVec 32}
    (bare : m.initialized = true ∨ firmware (label iAdr) = none) :
    m.word firmware iAdr = m.ram (wordIndex iAdr) := by
  unfold Memory.word
  rw [label] at bare
  rcases bare with shown | none
  · rw [if_pos shown]
  · rw [none, Option.getD_none, ite_self]

/-- **The boot overlay loses no write.** At an edge without reset `c5_ram` returns the firmware's
word where there is one and address 0 has not been written since the last reset, and otherwise, lane
by lane, the byte written last, or the byte of power-up. In particular a byte that was written and
not written over is returned once address 0 is written. -/
theorem read_returns (firmware : Firmware) (ram : BitVec 30 → BitVec 32) (o : BitVec 32)
    (input : ℕ → MemoryIn) (n : ℕ) (running : (input n).iRst = false) :
    (∀ v, firmware (label (input n).iAdr) = some v → ¬ ZeroWritten input n →
      (Clocked.run (c5Ram firmware) (powerUp ram o) input (n + 1)).oDat = v) ∧
    (firmware (label (input n).iAdr) = none ∨ ZeroWritten input n → ∀ l < 4,
      Clocked.Held (laneWritten (wordIndex (input n).iAdr) l)
        (lane l (ram (wordIndex (input n).iAdr))) input n
        (lane l (Clocked.run (c5Ram firmware) (powerUp ram o) input (n + 1)).oDat)) ∧
    (∀ m < n, ∀ l < 4, ∀ b,
      laneWritten (wordIndex (input n).iAdr) l (input m) = some b →
      (∀ k, m < k → k < n → laneWritten (wordIndex (input n).iAdr) l (input k) = none) →
      ZeroWritten input n →
        lane l (Clocked.run (c5Ram firmware) (powerUp ram o) input (n + 1)).oDat = b) := by
  have flag := @c5Ram_initialized firmware ram o input n
  have last : firmware (label (input n).iAdr) = none ∨ ZeroWritten input n → ∀ l < 4,
      Clocked.Held (laneWritten (wordIndex (input n).iAdr) l)
        (lane l (ram (wordIndex (input n).iAdr))) input n
        (lane l (Clocked.run (c5Ram firmware) (powerUp ram o) input (n + 1)).oDat) := by
    intro bare l hl
    rw [Clocked.run_succ, c5Ram_oDat running, word_uncovered (bare.symm.imp_left flag.mpr)]
    exact held_run c5Ram_ram (powerUp ram o) input _ hl n
  refine ⟨?_, last, ?_⟩
  · intro v entry covered
    rw [Clocked.run_succ, c5Ram_oDat running, Memory.word, if_neg (mt flag.mp covered), ← label,
      entry, Option.getD_some]
  · intro m hm l hl b written kept zero
    exact (last (.inr zero) l hl).eq_of_last hm written kept

/-- A table with the same word everywhere. -/
def nops : Firmware := fun _ => some 0x13#32

/-- The lowest byte of word 4 is written, then the highest of address 0, then word 4 is read. -/
def coveredWrite : ℕ → MemoryIn
  | 0 => ⟨false, true, 0b0001#4, 4#32, 0xab#32⟩
  | 1 => ⟨false, true, 0b1000#4, 0#32, 0#32⟩
  | _ => ⟨false, true, 0#4, 4#32, 0#32⟩

/-- The byte written under the firmware's word is returned. -/
theorem read_returns_coveredWrite :
    lane 0 (Clocked.run (c5Ram nops) (powerUp (fun _ => 0#32) 0#32) coveredWrite 3).oDat =
      0xab#8 := by
  have zero : ZeroWritten coveredWrite 2 := by
    refine ⟨1, by decide, by decide, ?_⟩
    intro k hk hk2
    obtain rfl : k = 1 := by omega
    decide
  refine (read_returns nops (fun _ => 0#32) 0#32 coveredWrite 2 rfl).2.2 0 (by decide) 0 (by decide)
    0xab#8 (by decide) ?_ zero
  intro k hk hk2
  obtain rfl : k = 1 := by omega
  decide

/-- **When the two modules agree.** They return the same after every edge of a run exactly when,
wherever address 0 has been written since the last reset but never with its lowest lane, the
firmware has no entry for the word read, or an entry with the bytes written to the word last. -/
theorem agree_iff (firmware : Firmware) (ram : BitVec 30 → BitVec 32) (o o' : BitVec 32)
    (input : ℕ → MemoryIn) :
    (∀ n, (Clocked.run (c5InstrMem firmware) (powerUp ram o) input (n + 1)).oDat =
        (Clocked.run (c5Ram firmware) (powerUp ram o') input (n + 1)).oDat) ↔
      ∀ n, (input n).iRst = false → ZeroWritten input n → ¬ ZeroLaneWritten input n →
        ∀ v, firmware (label (input n).iAdr) = some v → ∀ l < 4,
          Clocked.Held (laneWritten (wordIndex (input n).iAdr) l)
            (lane l (ram (wordIndex (input n).iAdr))) input n (lane l v) := by
  have edge : ∀ n, (Clocked.run (c5InstrMem firmware) (powerUp ram o) input (n + 1)).oDat =
        (Clocked.run (c5Ram firmware) (powerUp ram o') input (n + 1)).oDat ↔
      ((input n).iRst = false → ZeroWritten input n → ¬ ZeroLaneWritten input n →
        ∀ v, firmware (label (input n).iAdr) = some v → ∀ l < 4,
          Clocked.Held (laneWritten (wordIndex (input n).iAdr) l)
            (lane l (ram (wordIndex (input n).iAdr))) input n (lane l v)) := by
    intro n
    have held := fun {l : ℕ} (hl : l < 4) =>
      held_run (@c5Ram_ram firmware) (powerUp ram o') input
        (wordIndex (input n).iAdr) hl n
    have shown := @c5Ram_initialized firmware ram o' input n
    have shown' := @c5InstrMem_initialized firmware ram o input n
    have same := @ram_same firmware ram o o' input n
    rw [Clocked.run_succ, Clocked.run_succ]
    generalize Clocked.run (c5InstrMem firmware) (powerUp ram o) input n = s' at same shown' ⊢
    generalize Clocked.run (c5Ram firmware) (powerUp ram o') input n = s at same shown held ⊢
    cases rst : (input n).iRst with
    | true => simp [c5InstrMem, c5Ram, Ram.next, rst]
    | false =>
      rw [c5InstrMem_oDat rst, c5Ram_oDat rst]
      by_cases apart : ZeroWritten input n ∧ ¬ ZeroLaneWritten input n
      · rw [word_uncovered (.inl (shown.mpr apart.1)), Memory.word, if_neg (mt shown'.mp apart.2),
          ← label, same]
        simp only [apart, not_false_eq_true, true_imp_iff]
        constructor
        · intro eq v entry l hl
          rw [entry, Option.getD_some] at eq
          rw [eq]
          exact held hl
        · intro stores
          cases entry : firmware (label (input n).iAdr) with
          | none => rfl
          | some v =>
            refine eq_of_lanes fun l hl => ?_
            exact (stores v entry l hl).unique (held hl)
      · have flags : s'.memory.initialized = s.memory.initialized := by
          rw [Bool.eq_iff_iff, shown, shown']
          have lane : ZeroLaneWritten input n → ZeroWritten input n := zeroWritten_of_lane
          tauto
        have returned : s'.memory.word firmware (input n).iAdr =
            s.memory.word firmware (input n).iAdr := by
          rw [Memory.word, Memory.word, flags, same]
        exact iff_of_true returned fun _ zero lane => absurd ⟨zero, lane⟩ apart
  exact forall_congr' edge

/-- The second byte of address 0 is written, then word 4 is read. -/
def halfUncovered : ℕ → MemoryIn
  | 0 => ⟨false, true, 0b0010#4, 0#32, 0#32⟩
  | _ => ⟨false, true, 0#4, 4#32, 0#32⟩

/-- **A write without the lowest lane** uncovers the contents of `c5_ram` alone. -/
theorem modules_differ :
    (Clocked.run (c5InstrMem nops) (powerUp (fun _ => 0#32) 0#32) halfUncovered 2).oDat = 0x13#32 ∧
    (Clocked.run (c5Ram nops) (powerUp (fun _ => 0#32) 0#32) halfUncovered 2).oDat = 0#32 ∧
    ¬ ∀ n, (Clocked.run (c5InstrMem nops) (powerUp (fun _ => 0#32) 0#32) halfUncovered
        (n + 1)).oDat =
      (Clocked.run (c5Ram nops) (powerUp (fun _ => 0#32) 0#32) halfUncovered (n + 1)).oDat := by
  refine ⟨by decide, by decide, ?_⟩
  intro agree
  exact absurd (agree 1) (by decide)

end Teres.Rtl.Memories
