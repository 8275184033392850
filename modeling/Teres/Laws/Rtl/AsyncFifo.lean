import Teres.Rtl.AsyncFifo
import Mathlib.Tactic.Ring

/-!
# What the FIFO's pointers mean

The registers are pointers modulo `2 ^ (p + 1)`, in binary and in Gray code. `Counts` holds the
unbounded numbers they stand for: how many words were written and read, and how many of each the
other side has seen through its two synchronizer stages. `Tracks` says that the registers are those
numbers, that each side lags behind the other and not ahead of it, and that the writer is never
more than one memory ahead of what it has seen of the reader. `tracks_step` is the one step lemma,
over every combination of clock edges.
-/

namespace Teres.Rtl.AsyncFifo

variable {d p : ℕ}

/-! ## Counters modulo a power of two -/

/-- Two counts less than a lap apart have the same register exactly when they are equal. -/
theorem ofNat_inj_of_lap {w a b : ℕ} (le : a ≤ b) (lap : b < a + 2 ^ w) :
    BitVec.ofNat w a = BitVec.ofNat w b ↔ a = b := by
  constructor
  · intro h
    have hmod : a % 2 ^ w = b % 2 ^ w := by simpa using congrArg BitVec.toNat h
    have hdiff : (b - a) % 2 ^ w = 0 := (Nat.modEq_iff_dvd' le).mp hmod |> Nat.mod_eq_zero_of_dvd
    have small : b - a < 2 ^ w := by omega
    rw [Nat.mod_eq_of_lt small] at hdiff
    omega
  · rintro rfl; rfl

theorem ofNat_add_twoPow (p a : ℕ) :
    BitVec.ofNat (p + 1) a + BitVec.twoPow (p + 1) p = BitVec.ofNat (p + 1) (a + 2 ^ p) := by
  apply BitVec.eq_of_toNat_eq
  simp only [BitVec.toNat_add, BitVec.toNat_ofNat, BitVec.toNat_twoPow, Nat.add_mod_mod,
    Nat.mod_add_mod]

theorem ofNat_add_ofBool (p a : ℕ) (b : Bool) :
    BitVec.ofNat (p + 1) a + BitVec.setWidth (p + 1) (BitVec.ofBool b) =
      BitVec.ofNat (p + 1) (a + b.toNat) := by
  apply BitVec.eq_of_toNat_eq
  cases b <;> simp [Nat.add_mod]

theorem setWidth_ofNat (p a : ℕ) :
    (BitVec.ofNat (p + 1) a).setWidth p = BitVec.ofNat p a :=
  BitVec.setWidth_ofNat_of_le (Nat.le_succ p) a

/-- The difference of two registers less than a lap apart is the difference of their counts. -/
theorem sub_toNat {a b : ℕ} (le : a ≤ b) (near : b ≤ a + 2 ^ p) :
    (BitVec.ofNat (p + 1) b - BitVec.ofNat (p + 1) a).toNat = b - a := by
  obtain ⟨k, rfl⟩ := Nat.exists_eq_add_of_le le
  have lap : 2 ^ (p + 1) = 2 ^ p + 2 ^ p := by rw [pow_succ]; ring
  have := Nat.two_pow_pos p
  rw [Nat.add_sub_cancel_left, BitVec.ofNat_add, BitVec.add_comm, BitVec.add_sub_cancel,
    BitVec.toNat_ofNat, Nat.mod_eq_of_lt (by omega)]

/-! ## Counts -/

/-- The unbounded counts behind the pointers. `writeSeen1` and `writeSeen` are the reader's two
synchronizer stages, `readSeen1` and `readSeen` the writer's. -/
structure Counts where
  written : ℕ
  read : ℕ
  writeSeen1 : ℕ
  writeSeen : ℕ
  readSeen1 : ℕ
  readSeen : ℕ

/-- The counts after an instant. -/
def Counts.next (c : Counts) (s : State d p) (e : Edges d) : Counts where
  written := c.written + (accepts s e).length
  read := c.read + (takes s e).length
  writeSeen1 := if e.read.isSome then c.written else c.writeSeen1
  writeSeen := if e.read.isSome then c.writeSeen1 else c.writeSeen
  readSeen1 := if e.write.isSome then c.read else c.readSeen1
  readSeen := if e.write.isSome then c.readSeen1 else c.readSeen

/-- The counts before instant `n` of a run from reset. -/
def counts (s₀ : State d p) (input : ℕ → Edges d) : ℕ → Counts
  | 0 => ⟨0, 0, 0, 0, 0, 0⟩
  | n + 1 => (counts s₀ input n).next (states s₀ input n) (input n)

/-- The write side holds the counts. -/
structure WriteTracks (c : Counts) (w : WriteSide p) : Prop where
  bin : w.writeBin = BitVec.ofNat (p + 1) c.written
  ptr : w.writePtr = Gray.encode (BitVec.ofNat (p + 1) c.written)
  sync : w.writeReadPtr = Gray.encode (BitVec.ofNat (p + 1) c.readSeen)
  sync1 : w.writeReadPtr1 = Gray.encode (BitVec.ofNat (p + 1) c.readSeen1)
  within : c.written ≤ c.readSeen + 2 ^ p
  room : w.writeFull = false → c.written < c.readSeen + 2 ^ p

/-- The read side holds the counts. -/
structure ReadTracks (c : Counts) (r : ReadSide d p) : Prop where
  bin : r.readBin = BitVec.ofNat (p + 1) c.read
  ptr : r.readPtr = Gray.encode (BitVec.ofNat (p + 1) c.read)
  sync : r.readWritePtr = Gray.encode (BitVec.ofNat (p + 1) c.writeSeen)
  sync1 : r.readWritePtr1 = Gray.encode (BitVec.ofNat (p + 1) c.writeSeen1)

/-- **The pointer invariant**: both sides hold the counts, and each sees the other late. -/
structure Tracks (c : Counts) (s : State d p) : Prop where
  write : WriteTracks c s.w
  read : ReadTracks c s.r
  readSeen_le : c.readSeen ≤ c.readSeen1
  readSeen1_le : c.readSeen1 ≤ c.read
  read_le : c.read ≤ c.writeSeen
  writeSeen_le : c.writeSeen ≤ c.writeSeen1
  writeSeen1_le : c.writeSeen1 ≤ c.written

/-- `O_read_empty` has been computed: low, it promises a word. -/
def Armed (c : Counts) (s : State d p) : Prop :=
  s.r.oReadEmpty = false → c.read < c.writeSeen

/-- Reset clears every pointer. -/
theorem tracks_reset (s : State d p) : Tracks ⟨0, 0, 0, 0, 0, 0⟩ (reset s) := by
  have zero : (0#(p + 1) : BitVec (p + 1)) = Gray.encode (BitVec.ofNat (p + 1) 0) := by
    simp [Gray.encode]
  exact
    { write := ⟨rfl, zero, zero, zero, Nat.zero_le _, fun _ => by simp⟩
      read := ⟨rfl, zero, zero, zero⟩
      readSeen_le := le_rfl, readSeen1_le := le_rfl, read_le := le_rfl
      writeSeen_le := le_rfl, writeSeen1_le := le_rfl }

/-- What the writer has seen of the reader is behind what it has written. -/
theorem Tracks.behind {c : Counts} {s : State d p} (t : Tracks c s) : c.readSeen ≤ c.written := by
  have := t.readSeen_le; have := t.readSeen1_le; have := t.read_le
  have := t.writeSeen_le; have := t.writeSeen1_le
  omega

/-- The reader is behind the writer, by one memory at most. -/
theorem Tracks.read_le_written {c : Counts} {s : State d p} (t : Tracks c s) :
    c.read ≤ c.written ∧ c.written ≤ c.read + 2 ^ p := by
  have := t.readSeen_le; have := t.readSeen1_le; have := t.read_le
  have := t.writeSeen_le; have := t.writeSeen1_le; have := t.write.within
  omega

/-! ## One side's edge -/

theorem accepts_length (s : State d p) (e : Edges d) {i : WriteIn d} (h : e.write = some i) :
    (accepts s e).length = (i.iCmdWrite && !s.w.writeFull).toNat := by
  simp only [accepts, h]
  cases i.iCmdWrite && !s.w.writeFull <;> rfl

theorem takes_length (s : State d p) (e : Edges d) {b : Bool} (h : e.read = some b) :
    (takes s e).length = (b && !s.r.oReadEmpty).toNat := by
  simp only [takes, h]
  cases b && !s.r.oReadEmpty <;> rfl

/-- The next write pointer counts the word accepted at the edge. -/
theorem WriteTracks.binNext {c : Counts} {w : WriteSide p} (t : WriteTracks c w) (cmd : Bool) :
    w.writeBinNext cmd = BitVec.ofNat (p + 1) (c.written + (cmd && !w.writeFull).toNat) := by
  rw [WriteSide.writeBinNext, t.bin, ofNat_add_ofBool]

theorem ReadTracks.binNext {c : Counts} {r : ReadSide d p} (t : ReadTracks c r) (cmd : Bool) :
    r.readBinNext cmd = BitVec.ofNat (p + 1) (c.read + (cmd && !r.oReadEmpty).toNat) := by
  rw [ReadSide.readBinNext, t.bin, ofNat_add_ofBool]

/-- An accepted word still fits in one memory. -/
theorem WriteTracks.within_next {c : Counts} {w : WriteSide p} (t : WriteTracks c w) (cmd : Bool) :
    c.written + (cmd && !w.writeFull).toNat ≤ c.readSeen + 2 ^ p := by
  cases full : w.writeFull with
  | true => simpa using t.within
  | false =>
    have := t.room full
    have := Bool.toNat_le (cmd && !false)
    omega

/-- **The full comparison**, in counts: it holds exactly when the write pointer after the edge is
one memory ahead of what the writer has seen of the reader. -/
theorem WriteTracks.fullVal_iff (hp : 1 ≤ p) {c : Counts} {w : WriteSide p} (t : WriteTracks c w)
    (behind : c.readSeen ≤ c.written) (cmd : Bool) :
    w.writeFullVal cmd = true ↔
      c.written + (cmd && !w.writeFull).toNat = c.readSeen + 2 ^ p := by
  have within := t.within_next cmd
  have lap : 2 ^ (p + 1) = 2 ^ p + 2 ^ p := by rw [pow_succ]; ring
  rw [WriteSide.writeFullVal, beq_iff_eq, WriteSide.writeGrayNext, t.sync,
    Gray.encode_eq_flipTop hp, t.binNext, ofNat_add_twoPow]
  refine ofNat_inj_of_lap within ?_
  have := Nat.two_pow_pos p
  omega

/-- **The empty comparison**, in counts. -/
theorem ReadTracks.emptyVal_iff {c : Counts} {r : ReadSide d p} (t : ReadTracks c r) (cmd : Bool)
    (le : c.read + (cmd && !r.oReadEmpty).toNat ≤ c.writeSeen)
    (near : c.writeSeen ≤ c.read + 2 ^ p) :
    r.readEmptyVal cmd = true ↔ c.read + (cmd && !r.oReadEmpty).toNat = c.writeSeen := by
  rw [ReadSide.readEmptyVal, beq_iff_eq, ReadSide.readGrayNext, t.sync, Gray.encode_inj, t.binNext]
  refine ofNat_inj_of_lap le ?_
  have := Nat.two_pow_pos p
  have : 2 ^ (p + 1) = 2 ^ p + 2 ^ p := by rw [pow_succ]; ring
  omega

/-! ## The step lemma -/

/-- A read edge takes no more than the reader has seen written. -/
theorem read_within {c : Counts} {s : State d p} (t : Tracks c s) {e : Edges d}
    (ready : e.read = some true → Armed c s) : c.read + (takes s e).length ≤ c.writeSeen := by
  cases h : e.read with
  | none => simpa [takes, h] using t.read_le
  | some b =>
    rw [takes_length s e h]
    cases b with
    | false => simpa using t.read_le
    | true =>
      cases empty : s.r.oReadEmpty with
      | true => simpa using t.read_le
      | false => exact Nat.succ_le_of_lt (ready h empty)

/-- **One instant keeps the pointer invariant**, for every combination of clock edges, as long as
a read is asked for only once `O_read_empty` has been computed. -/
theorem tracks_step (hp : 1 ≤ p) {c : Counts} {s : State d p} (t : Tracks c s) (e : Edges d)
    (ready : e.read = some true → Armed c s) : Tracks (c.next s e) (step s e) := by
  have readWithin := read_within t ready
  have behind := t.behind
  obtain ⟨tw, tr, h1, h2, h3, h4, h5⟩ := t
  refine ⟨?write, ?read, ?_, ?_, ?_, ?_, ?_⟩
  case write =>
    cases h : e.write with
    | none => simpa [step, Counts.next, accepts, h] using ⟨tw.bin, tw.ptr, tw.sync, tw.sync1,
        tw.within, tw.room⟩
    | some i =>
      have len := accepts_length s e h
      have within := tw.within_next i.iCmdWrite
      have within' : c.written + (i.iCmdWrite && !s.w.writeFull).toNat ≤ c.readSeen1 + 2 ^ p := by
        omega
      simp only [step, Counts.next, h, Option.isSome_some, ↓reduceIte, len]
      refine ⟨tw.binNext _, congrArg Gray.encode (tw.binNext _), tw.sync1, tr.ptr, within', ?_⟩
      intro notFull
      have : c.written + (i.iCmdWrite && !s.w.writeFull).toNat ≠ c.readSeen + 2 ^ p := by
        rw [ne_eq, ← tw.fullVal_iff hp behind]
        exact Bool.eq_false_iff.mp notFull
      show c.written + (i.iCmdWrite && !s.w.writeFull).toNat < c.readSeen1 + 2 ^ p
      omega
  case read =>
    cases h : e.read with
    | none => simpa [step, Counts.next, takes, h] using ⟨tr.bin, tr.ptr, tr.sync, tr.sync1⟩
    | some b =>
      have len := takes_length s e h
      simp only [step, Counts.next, h, Option.isSome_some, ↓reduceIte, len]
      exact ⟨tr.binNext _, congrArg Gray.encode (tr.binNext _), tr.sync1, tw.ptr⟩
  all_goals
    simp only [Counts.next]
    split_ifs <;> omega

/-- A read edge computes `O_read_empty`, and nothing unsets what it promises. -/
theorem armed_step {c : Counts} {s : State d p} (t : Tracks c s) (e : Edges d)
    (ready : e.read = some true → Armed c s) (armed : e.read = none → Armed c s) :
    Armed (c.next s e) (step s e) := by
  intro empty
  have within := read_within t ready
  cases h : e.read with
  | none =>
    simp only [step, h] at empty
    simpa [Counts.next, takes, h] using armed h empty
  | some b =>
    have len := takes_length s e h
    have near : c.writeSeen ≤ c.read + 2 ^ p :=
      (t.writeSeen_le.trans t.writeSeen1_le).trans t.read_le_written.2
    rw [len] at within
    simp only [step, h, ReadSide.next] at empty
    have ne : c.read + (b && !s.r.oReadEmpty).toNat ≠ c.writeSeen := by
      rw [ne_eq, ← t.read.emptyVal_iff b within near]
      exact Bool.eq_false_iff.mp empty
    have := t.writeSeen_le
    simp only [Counts.next, h, Option.isSome_some, ↓reduceIte, len]
    omega

end Teres.Rtl.AsyncFifo
