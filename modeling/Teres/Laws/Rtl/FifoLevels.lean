import Teres.Laws.Rtl.FifoReserve

/-!
# The FIFO's pointer arithmetic, its level flags and its reader

Three laws about the pointers themselves, without a discipline of the writer.

`gray_pointers` is the arithmetic of the Gray codes at the FIFO's nets, for all pointer values.

`level_flags_iff` is when the registered flags tell the fill level. `nb_data_val` has
`POINTER_WIDTH` bits, one fewer than the pointers, so a completely full memory counts as an empty
one: both flags are low exactly where the writer must stop. `level_le` says that the write side
never counts more than that, as long as the reader does not underflow.

`never_passes_iff` is when the reader cannot underflow. Reset leaves `O_read_empty` low, and the
flag first tells the truth after one read edge; a read at that edge is honoured and moves the read
pointer past the write pointer of an empty memory. A reader whose first edge carries no
`I_cmd_read` never passes the writer, whatever the order of the edges.
-/

namespace Teres.Rtl.AsyncFifo

variable {d p : ℕ}

/-! ## Gray pointers -/

/-- **The arithmetic of the Gray pointers.** Decoding inverts encoding; a step of a pointer changes
one bit of its code, also from the last value to the first; the full comparison holds exactly one
memory apart. The last part says it at the nets of the write side. -/
theorem gray_pointers (hp : 2 ≤ p) (b r : BitVec (p + 1)) :
    Gray.decode (Gray.encode b) = b ∧
    (∃! k, (Gray.encode b).getLsbD k ≠ (Gray.encode (b + 1#(p + 1))).getLsbD k) ∧
    (Gray.encode b = Gray.flipTop (Gray.encode r) ↔ b - r = BitVec.twoPow (p + 1) p) ∧
    (∀ (w : WriteSide p) (readPtr : BitVec (p + 1)) (i : WriteIn d),
      w.writeBinNext i.iCmdWrite = b → w.writeReadPtr = Gray.encode r →
        (w.next readPtr i).writeReadBin = r ∧
        (w.writeFullVal i.iCmdWrite = true ↔ b - r = BitVec.twoPow (p + 1) p)) := by
  have apart : b = r + BitVec.twoPow (p + 1) p ↔ b - r = BitVec.twoPow (p + 1) p := by
    rw [BitVec.sub_eq_iff_eq_add, BitVec.add_comm]
  have full := (Gray.encode_eq_flipTop (Nat.le_of_succ_le hp) b r).trans apart
  refine ⟨Gray.decode_encode b, Gray.existsUnique_encode_ne b, full, ?_⟩
  intro w readPtr i next sync
  constructor
  · show Gray.decode w.writeReadPtr = r
    rw [sync, Gray.decode_encode]
  · rw [WriteSide.writeFullVal, beq_iff_eq, WriteSide.writeGrayNext, next, sync]
    exact full

/-- The last pointer of a memory of four words and the pointer one memory behind it. -/
theorem gray_pointers_wrap :
    Gray.decode (Gray.encode 7#3) = 7#3 ∧
    (∃! k, (Gray.encode 7#3).getLsbD k ≠ (Gray.encode (7#3 + 1#3)).getLsbD k) ∧
    Gray.encode 7#3 = Gray.flipTop (Gray.encode 3#3) :=
  have laws := gray_pointers (d := 8) (p := 2) le_rfl 7#3 3#3
  ⟨laws.1, laws.2.1, laws.2.2.1.mpr (by decide)⟩

/-! ## The level flags -/

/-- The count behind the level flags at a write edge: the write pointer less the decoded read
pointer that drives `nb_data_val` there. -/
def WriteSide.level (w : WriteSide p) (i : WriteIn d) : ℕ :=
  (w.writeBin - if i.settled then Gray.decode w.writeReadPtr else w.writeReadBin).toNat

/-- The two registered flags tell a fill level of `n` words. -/
structure FlagsTell (w : WriteSide p) (n : ℕ) : Prop where
  full : w.oWriteFull = true ↔ depth p - 2 ≤ n
  half : w.oHalfFull = true ↔ depth p / 2 ≤ n

/-- `nb_data_val` is the difference of the pointers without its top bit. -/
theorem nbDataVal_toNat (w : WriteSide p) (b : BitVec (p + 1)) :
    (w.nbDataVal b).toNat = (w.writeBin - b).toNat % 2 ^ p := by
  have cut : w.nbDataVal b = (w.writeBin - b).setWidth p := by
    rw [WriteSide.nbDataVal, BitVec.sub_eq_add_neg, BitVec.sub_eq_add_neg,
      BitVec.setWidth_add _ _ (Nat.le_succ p), BitVec.setWidth_neg_of_le (Nat.le_succ p)]
  rw [cut, BitVec.toNat_setWidth]

/-- The flags that a write edge registers, from the count without its top bit. -/
theorem next_flags (w : WriteSide p) (readPtr : BitVec (p + 1)) (i : WriteIn d) :
    (w.next readPtr i).oWriteFull = decide (depth p - 2 ≤ w.level i % depth p) ∧
      (w.next readPtr i).oHalfFull = decide (depth p / 2 ≤ w.level i % depth p) := by
  simp only [WriteSide.next]
  rw [nbDataVal_toNat]
  exact ⟨rfl, rfl⟩

/-- Where the top bit of the count is clear or the rest of it is nearly full, it does not matter
to the flags; elsewhere it does. -/
theorem flagsTell_next_iff (hp : 2 ≤ p) (w : WriteSide p) (readPtr : BitVec (p + 1))
    (i : WriteIn d) : FlagsTell (w.next readPtr i) (w.level i) ↔
      w.level i < depth p ∨ 2 * depth p - 2 ≤ w.level i := by
  obtain ⟨full, half⟩ := next_flags w readPtr i
  have four : 2 ^ 2 ≤ depth p := Nat.pow_le_pow_right (by decide) hp
  have range : w.level i < 2 * depth p := by
    rw [depth, ← Nat.pow_succ']
    exact BitVec.isLt _
  generalize w.level i = n at full half range
  constructor
  · intro tells
    have told := tells.full
    rw [full, decide_eq_true_iff] at told
    by_contra outside
    have cut : n % depth p = n - depth p := by
      rw [Nat.mod_eq_sub_mod (by omega), Nat.mod_eq_of_lt (by omega)]
    omega
  · rintro (low | high)
    · rw [Nat.mod_eq_of_lt low] at full half
      exact ⟨by rw [full, decide_eq_true_iff], by rw [half, decide_eq_true_iff]⟩
    · have cut : n % depth p = n - depth p := by
        rw [Nat.mod_eq_sub_mod (by omega), Nat.mod_eq_of_lt (by omega)]
      constructor
      · rw [full, decide_eq_true_iff]
        omega
      · rw [half, decide_eq_true_iff]
        omega

/-! ### How far the count ranges -/

/-- The register behind the count, once a write edge has loaded it: it lags the synchronized
pointer by less than the writer's room. -/
def Lags (c : Counts) (w : WriteSide p) : Prop :=
  ∃ b ≤ c.readSeen, w.writeReadBin = BitVec.ofNat (p + 1) b ∧ c.written ≤ b + 2 ^ p

/-- A write edge loads the register, and instants without one leave it. -/
theorem lags_step {c : Counts} {s : State d p} (t : Tracks c s) (e : Edges d)
    (lags : e.write = none → Lags c s.w) : Lags (c.next s e) (step s e).w := by
  cases h : e.write with
  | none => simpa [Lags, step, Counts.next, accepts, h] using lags h
  | some i =>
    have within := t.write.within_next i.iCmdWrite
    simp only [Lags, step, Counts.next, h, Option.isSome_some, ↓reduceIte, accepts_length s e h]
    refine ⟨c.readSeen, t.readSeen_le, ?_, within⟩
    simp only [WriteSide.next, t.write.sync, Gray.decode_encode]

theorem lags_run (hp : 1 ≤ p) (s₀ : State d p) {input : ℕ → Edges d} (waits : ReaderWaits input)
    {n : ℕ} (written : ∃ m < n, (input m).write.isSome = true) :
    Lags (counts s₀ input n) (states s₀ input n).w := by
  induction n with
  | zero =>
    obtain ⟨_, h, _⟩ := written
    exact absurd h (Nat.not_lt_zero _)
  | succ n ih =>
    refine lags_step (tracks_run hp s₀ waits n).1 (input n) ?_
    intro none
    obtain ⟨m, hm, edge⟩ := written
    rcases Nat.lt_succ_iff_lt_or_eq.mp hm with lt | rfl
    · exact ih ⟨m, lt, edge⟩
    · simp [none] at edge

/-- **The count ranges over the fill levels**, where the reader does not underflow. Before the
first write edge the register behind it holds what it held before reset. -/
theorem level_le (hp : 1 ≤ p) (s₀ : State d p) {input : ℕ → Edges d} (waits : ReaderWaits input)
    {n : ℕ} {i : WriteIn d}
    (loaded : i.settled = true ∨ ∃ m < n, (input m).write.isSome = true) :
    (states s₀ input n).w.level i ≤ depth p := by
  have t := (tracks_run hp s₀ waits n).1
  have behind := t.behind
  have within := t.write.within
  rw [WriteSide.level]
  cases settled : i.settled with
  | true =>
    rw [if_pos rfl, t.write.sync, Gray.decode_encode, t.write.bin, sub_toNat behind within, depth]
    omega
  | false =>
    rw [settled] at loaded
    obtain ⟨b, le, register, near⟩ := lags_run hp s₀ waits (loaded.resolve_left (by decide))
    rw [if_neg (by decide), register, t.write.bin, sub_toNat (le.trans behind) near, depth]
    omega

/-- **When the level flags are right.** In every reachable state the flags that the next write edge
registers tell the count they are computed from exactly when the count is below one memory; where
the reader does not underflow, that leaves out the full memory alone. -/
theorem level_flags_iff (hp : 2 ≤ p) (s₀ : State d p) (input : ℕ → Edges d) (n : ℕ)
    (i : WriteIn d) (edge : (input n).write = some i) :
    (FlagsTell (states s₀ input (n + 1)).w ((states s₀ input n).w.level i) ↔
      (states s₀ input n).w.level i < depth p ∨
        2 * depth p - 2 ≤ (states s₀ input n).w.level i) ∧
    (ReaderWaits input → (i.settled = true ∨ ∃ m < n, (input m).write.isSome = true) →
      (states s₀ input n).w.level i ≤ depth p ∧
      (FlagsTell (states s₀ input (n + 1)).w ((states s₀ input n).w.level i) ↔
        (states s₀ input n).w.level i ≠ depth p)) := by
  have tells := flagsTell_next_iff hp (states s₀ input n).w (states s₀ input n).r.readPtr i
  have next : (states s₀ input (n + 1)).w =
      (states s₀ input n).w.next (states s₀ input n).r.readPtr i := by
    simp only [states, Clocked.run_succ, step, edge]
  rw [next]
  refine ⟨tells, ?_⟩
  intro waits loaded
  have le := level_le (Nat.le_of_succ_le hp) s₀ waits loaded
  have four : 2 ^ 2 ≤ depth p := Nat.pow_le_pow_right (by decide) hp
  refine ⟨le, tells.trans ?_⟩
  omega

/-- The third word of the filling run is written at a count of two, and the flags say so. -/
theorem level_flags_filling :
    (states blank fillingEdges 2).w.level (d := 8) ⟨true, 3#8, true⟩ = 2 ∧
      FlagsTell (states blank fillingEdges 3).w
        ((states blank fillingEdges 2).w.level (d := 8) ⟨true, 3#8, true⟩) :=
  ⟨by decide, (level_flags_iff le_rfl blank fillingEdges 2 ⟨true, 3#8, true⟩ rfl).1.mpr
    (.inl (by decide))⟩

/-- Five write edges with a word each, no read edge. -/
def overfillingEdges : ℕ → Edges 8 := fun n =>
  { write := if n < 5 then some ⟨true, BitVec.ofNat 8 (n + 1), true⟩ else none, read := none }

/-- **The full memory reads as an empty one.** After four words the write side counts four of four
and `write_full` is high; the fifth write edge registers both flags low. -/
theorem full_flags_low :
    (states blank overfillingEdges 4).w.writeFull = true ∧
    (states blank overfillingEdges 4).w.level (d := 8) ⟨true, 5#8, true⟩ = depth 2 ∧
    (states blank overfillingEdges 5).w.oWriteFull = false ∧
    (states blank overfillingEdges 5).w.oHalfFull = false ∧
    ¬ FlagsTell (states blank overfillingEdges 5).w
      ((states blank overfillingEdges 4).w.level (d := 8) ⟨true, 5#8, true⟩) := by
  refine ⟨by decide, by decide, by decide, by decide, ?_⟩
  intro tells
  exact absurd (tells.full.mpr (by decide)) (by decide)

/-! ## The reader -/

/-- The read edges carry the commands of a sequence, from the first one after reset on. -/
def ReadsAs (cmd : ℕ → Bool) (input : ℕ → Edges d) : Prop :=
  ∀ n b, (input n).read = some b → b = cmd (readEdges input 0 n)

/-- The read pointer never passes the write pointer: it advances only where the two differ, and it
stays behind by one memory at most. -/
def NeverPasses (s₀ : State d p) (input : ℕ → Edges d) : Prop :=
  ∀ n, ((states s₀ input (n + 1)).r.readBin ≠ (states s₀ input n).r.readBin →
      (states s₀ input n).r.readBin ≠ (states s₀ input n).w.writeBin) ∧
    ((states s₀ input n).w.writeBin - (states s₀ input n).r.readBin).toNat ≤ depth p

/-- A sequence that starts low waits for `O_read_empty`. -/
theorem ReadsAs.waits {cmd : ℕ → Bool} {input : ℕ → Edges d} (reads : ReadsAs cmd input)
    (low : cmd 0 = false) : ReaderWaits input := by
  intro n h
  have asked := reads n true h
  by_cases first : readEdges input 0 n = 0
  · rw [first, low] at asked
    exact absurd asked (by decide)
  · obtain ⟨m, hm, edge⟩ := readEdges_pos (Nat.pos_of_ne_zero first)
    exact ⟨m, by omega, edge⟩

/-- A reader that waits never passes the writer. -/
theorem never_passes (hp : 1 ≤ p) (s₀ : State d p) {input : ℕ → Edges d}
    (waits : ReaderWaits input) : NeverPasses s₀ input := by
  intro n
  obtain ⟨t, armed⟩ := tracks_run hp s₀ waits n
  obtain ⟨le, near⟩ := t.read_le_written
  constructor
  · intro moves
    -- the pointer moves only with a word taken under a low `O_read_empty`
    have taken : (takes (states s₀ input n) (input n)).length ≠ 0 := by
      intro none
      have same : (counts s₀ input (n + 1)).read = (counts s₀ input n).read :=
        congrArg ((counts s₀ input n).read + ·) none
      have next := (tracks_run hp s₀ waits (n + 1)).1.read.bin
      rw [same, ← t.read.bin] at next
      exact moves next
    have seen := read_within t fun h => armed (waits n h)
    have ahead : (counts s₀ input n).read < (counts s₀ input n).written := by
      have := t.writeSeen_le
      have := t.writeSeen1_le
      omega
    have lap : 2 ^ (p + 1) = 2 ^ p + 2 ^ p := by rw [pow_succ]; ring
    have := Nat.two_pow_pos p
    rw [t.read.bin, t.write.bin, ne_eq, ofNat_inj_of_lap le (by omega)]
    exact Nat.ne_of_lt ahead
  · rw [occupancy_eq t, depth]
    omega

/-- No write edge, and one read edge, with `I_cmd_read`. -/
def hastyEdges (d : ℕ) : ℕ → Edges d := fun n =>
  { write := none, read := if n = 0 then some true else none }

theorem hastyEdges_reads {cmd : ℕ → Bool} (high : cmd 0 = true) :
    ReadsAs cmd (hastyEdges d) := by
  intro n b h
  by_cases first : n = 0
  · subst first
    have asked : true = b := by simpa [hastyEdges] using h
    rw [← asked]
    exact high.symm
  · simp [hastyEdges, first] at h

/-- The read pointer moves off the write pointer of an empty memory. -/
theorem hastyEdges_passes (s₀ : State d p) : ¬ NeverPasses s₀ (hastyEdges d) := by
  intro never
  have same : (states s₀ (hastyEdges d) 0).r.readBin = (states s₀ (hastyEdges d) 0).w.writeBin :=
    rfl
  refine (never 0).1 ?_ same
  have moved : (states s₀ (hastyEdges d) 1).r.readBin = 1#(p + 1) := by
    simp [states, step, hastyEdges, ReadSide.next, ReadSide.readBinNext, reset, ReadSide.reset]
  have start : (states s₀ (hastyEdges d) 0).r.readBin = 0#(p + 1) := rfl
  rw [moved, start]
  simp

/-- **When the reader cannot underflow.** A sequence of read commands keeps the read pointer behind
the write pointer, for every interleaving of the clocks, every writer and every state before reset,
exactly when it does not begin with a command at the first read edge. -/
theorem never_passes_iff (hp : 2 ≤ p) (cmd : ℕ → Bool) :
    (∀ (s₀ : State d p) (input : ℕ → Edges d), ReadsAs cmd input → NeverPasses s₀ input) ↔
      cmd 0 = false := by
  constructor
  · intro never
    rw [← Bool.not_eq_true]
    intro high
    have zero : State d p :=
      ⟨⟨false, false, 0, 0, 0, 0, 0, false⟩, ⟨0, false, 0, 0, 0, 0⟩, fun _ => 0⟩
    exact hastyEdges_passes zero (never zero (hastyEdges d) (hastyEdges_reads high))
  · intro low s₀ input reads
    exact never_passes (Nat.le_of_succ_le hp) s₀ (reads.waits low)

/-- One write edge, then read edges, with `I_cmd_read` at the fourth. -/
def tricklingEdges : ℕ → Edges 8 := fun n =>
  { write := if n = 0 then some ⟨true, 9#8, true⟩ else none
    read := if n = 0 then none else some (decide (n = 4)) }

/-- The reader of the trickling run begins with three edges without a command. -/
theorem never_passes_trickling : NeverPasses blank tricklingEdges :=
  (never_passes_iff le_rfl fun n => decide (n = 3)).mpr rfl blank tricklingEdges <| by
    intro n b h
    by_cases first : n = 0
    · subst first
      simp [tricklingEdges] at h
    · have edges : ∀ k, readEdges tricklingEdges 0 (k + 1) = k := by
        intro k
        induction k with
        | zero => rfl
        | succ k ih => rw [readEdges, ih]; simp [tricklingEdges]
      obtain ⟨k, rfl⟩ := Nat.exists_eq_succ_of_ne_zero first
      have asked : decide (k + 1 = 4) = b := by simpa [tricklingEdges] using h
      rw [← asked, Nat.succ_eq_add_one, edges k]
      simp

/-- **The underflow.** A read at the first edge after reset moves the read pointer one past the
write pointer of the empty memory, and the difference counts seven words in a memory of four. -/
theorem underflow :
    ReadsAs (fun n => decide (n = 0)) (hastyEdges 8) ∧
    (states blank (hastyEdges 8) 0).r.readBin = (states blank (hastyEdges 8) 0).w.writeBin ∧
    (states blank (hastyEdges 8) 1).r.readBin = 1#3 ∧
    ((states blank (hastyEdges 8) 1).w.writeBin -
      (states blank (hastyEdges 8) 1).r.readBin).toNat = 7 ∧
    ¬ NeverPasses blank (hastyEdges 8) :=
  ⟨hastyEdges_reads rfl, rfl, by decide, by decide, hastyEdges_passes blank⟩

end Teres.Rtl.AsyncFifo
