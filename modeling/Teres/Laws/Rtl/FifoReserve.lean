import Teres.Laws.Rtl.FifoWords

/-!
# The almost-full reserve

A writer that gives `I_cmd_write` only where `O_write_full` is low never fills the memory. The flag
is registered, and the count it is computed from may be one edge older than the synchronized read
pointer, itself two edges old; `Reserve` is the slack that survives all of it. One free word is
left in every state (`slack`), two where the flag is low (`low`), and the register behind the count
lags the synchronized pointer without wrapping (`lag`). `POINTER_WIDTH ≥ 2` enters once, at the
first write edge, where the register still holds what it held before reset.

From there the words are those of `Teres.Laws.Rtl.FifoWords`, and `drained` adds that a reader that
reads wherever it may gets every waiting word: three read edges bring the write pointer through the
synchronizer and into `O_read_empty`, and every edge after them takes a word.
-/

namespace Teres.Rtl.AsyncFifo

variable {d p : ℕ}

/-- The writer gives `I_cmd_write` only where `O_write_full` is low. -/
def WriterYields (s₀ : State d p) (input : ℕ → Edges d) : Prop :=
  ∀ n i, (input n).write = some i → i.iCmdWrite = true →
    (states s₀ input n).w.oWriteFull = false

/-- The reader gives `I_cmd_read` only where `O_read_empty` is low and one read edge has passed. -/
def ReaderYields (s₀ : State d p) (input : ℕ → Edges d) : Prop :=
  ∀ n, (input n).read = some true →
    (states s₀ input n).r.oReadEmpty = false ∧ ∃ m < n, (input m).read.isSome = true

theorem ReaderYields.waits {s₀ : State d p} {input : ℕ → Edges d} (h : ReaderYields s₀ input) :
    ReaderWaits input := fun n hn => (h n hn).2

/-! ## The reserve -/

/-- The slack of a writer that yields to `O_write_full`. -/
structure Reserve (c : Counts) (w : WriteSide p) : Prop where
  slack : c.written + 1 ≤ c.readSeen + 2 ^ p
  low : w.oWriteFull = false → c.written + 2 ≤ c.readSeen + 2 ^ p
  /-- Before the first write edge `write_read_bin` holds anything; after it, a count that the
  synchronized pointer has reached. -/
  lag : c.written = 0 ∨ ∃ b ≤ c.readSeen, w.writeReadBin = BitVec.ofNat (p + 1) b ∧
    c.written + 1 ≤ b + 2 ^ p

/-- The count of the flags, where the register behind it lags without wrapping. -/
theorem nbDataVal_eq {c : Counts} {w : WriteSide p} (t : WriteTracks c w) {b : ℕ}
    (le : b ≤ c.written) (near : c.written < b + 2 ^ p) :
    (w.nbDataVal (BitVec.ofNat (p + 1) b)).toNat = c.written - b := by
  obtain ⟨k, hk⟩ := Nat.exists_eq_add_of_le le
  rw [WriteSide.nbDataVal, t.bin, setWidth_ofNat, setWidth_ofNat, hk, Nat.add_sub_cancel_left,
    BitVec.ofNat_add, BitVec.add_comm, BitVec.add_sub_cancel, BitVec.toNat_ofNat,
    Nat.mod_eq_of_lt (by omega)]

/-- A low `O_write_full` after an edge was computed from a count of at least three free words. -/
theorem three_free (hp : 2 ≤ p) {c : Counts} {w : WriteSide p} (t : WriteTracks c w)
    (behind : c.readSeen ≤ c.written) (r : Reserve c w) {readPtr : BitVec (p + 1)} {i : WriteIn d}
    (flag : (w.next readPtr i).oWriteFull = false) : c.written + 3 ≤ c.readSeen + 2 ^ p := by
  have four : 2 ^ 2 ≤ 2 ^ p := Nat.pow_le_pow_right (by decide) hp
  have slack := r.slack
  simp only [WriteSide.next, depth, decide_eq_false_iff_not, Nat.not_le, t.sync,
    Gray.decode_encode] at flag
  cases settled : i.settled with
  | true =>
    rw [settled, if_pos rfl, nbDataVal_eq t behind (by omega)] at flag
    omega
  | false =>
    rw [settled, if_neg (by decide)] at flag
    rcases r.lag with zero | ⟨b, le, reg, near⟩
    · omega
    · rw [reg, nbDataVal_eq t (le.trans behind) (by omega)] at flag
      omega

/-- **One instant keeps the reserve**, for a writer that yields. -/
theorem reserve_step (hp : 2 ≤ p) {c : Counts} {s : State d p} (t : Tracks c s)
    (r : Reserve c s.w) {e : Edges d}
    (yields : ∀ i, e.write = some i → i.iCmdWrite = true → s.w.oWriteFull = false) :
    Reserve (c.next s e) (step s e).w := by
  have behind := t.behind
  have later := t.readSeen_le
  cases h : e.write with
  | none => simpa [step, Counts.next, accepts, h] using ⟨r.slack, r.low, r.lag⟩
  | some i =>
    -- the word of this edge, if there is one, was asked for under a low flag
    have slack : c.written + (i.iCmdWrite && !s.w.writeFull).toNat + 1 ≤ c.readSeen + 2 ^ p := by
      cases cmd : i.iCmdWrite with
      | false => simpa using r.slack
      | true =>
        have := r.low (yields i h cmd)
        have := Bool.toNat_le (true && !s.w.writeFull)
        omega
    have one := Bool.toNat_le (i.iCmdWrite && !s.w.writeFull)
    simp only [step, Counts.next, h, Option.isSome_some, ↓reduceIte, accepts_length s e h]
    refine ⟨?slack, fun flag => ?low, .inr ⟨c.readSeen, later, ?reg, slack⟩⟩
    case slack =>
      show c.written + (i.iCmdWrite && !s.w.writeFull).toNat + 1 ≤ c.readSeen1 + 2 ^ p
      omega
    case low =>
      have free := three_free hp t.write behind r flag
      show c.written + (i.iCmdWrite && !s.w.writeFull).toNat + 2 ≤ c.readSeen1 + 2 ^ p
      omega
    case reg => simp only [WriteSide.next, t.write.sync, Gray.decode_encode]

/-- The reserve before every instant of a run of a writer that yields. -/
theorem reserve_run (hp : 2 ≤ p) (s₀ : State d p) {input : ℕ → Edges d}
    (writer : WriterYields s₀ input) (waits : ReaderWaits input) (n : ℕ) :
    Reserve (counts s₀ input n) (states s₀ input n).w := by
  have four : 2 ^ 2 ≤ 2 ^ p := Nat.pow_le_pow_right (by decide) hp
  induction n with
  | zero =>
    refine ⟨?_, fun _ => ?_, .inl rfl⟩
    · show 0 + 1 ≤ 0 + 2 ^ p; omega
    · show 0 + 2 ≤ 0 + 2 ^ p; omega
  | succ n ih =>
    exact reserve_step hp (tracks_run (Nat.le_of_succ_le hp) s₀ waits n).1 ih (writer n)

/-- **`write_full` stays low** for a writer that yields. -/
theorem writeFull_low (hp : 2 ≤ p) (s₀ : State d p) {input : ℕ → Edges d}
    (writer : WriterYields s₀ input) (waits : ReaderWaits input) (n : ℕ) :
    (states s₀ input n).w.writeFull = false := by
  cases n with
  | zero => rfl
  | succ n =>
    have hp' : 1 ≤ p := Nat.le_of_succ_le hp
    have t := (tracks_run hp' s₀ waits n).1
    have r := reserve_run hp s₀ writer waits n
    rw [states, Clocked.run_succ, ← states]
    cases h : (input n).write with
    | none =>
      simp only [step, h]
      exact writeFull_low hp s₀ writer waits n
    | some i =>
      simp only [step, h, WriteSide.next]
      rw [← Bool.not_eq_true, t.write.fullVal_iff hp' t.behind]
      have slack := r.slack
      cases cmd : i.iCmdWrite with
      | false => simpa using (by omega : ¬ _ = _)
      | true =>
        have := r.low (writer n i h cmd)
        have := Bool.toNat_le (true && !(states s₀ input n).w.writeFull)
        omega

/-! ## Every commanded word is delivered -/

/-- The words waiting in the memory, oldest first. -/
def waiting (s : State d p) : List (BitVec d) :=
  (List.range (s.w.writeBin - s.r.readBin).toNat).map fun k =>
    s.mem (s.r.readAddress + BitVec.ofNat p k)

/-- The pointers' difference is the number of waiting words. -/
theorem occupancy_eq {c : Counts} {s : State d p} (t : Tracks c s) :
    (s.w.writeBin - s.r.readBin).toNat = c.written - c.read := by
  obtain ⟨le, near⟩ := t.read_le_written
  rw [t.write.bin, t.read.bin, sub_toNat le near]

/-- The waiting words are the accepted words that have not been taken. -/
theorem waiting_eq {c : Counts} {s : State d p} (t : Tracks c s) {words : List (BitVec d)}
    (len : words.length = c.written) (stored : Stored c words s.mem) :
    waiting s = words.drop c.read := by
  apply List.ext_getElem?
  intro k
  rw [waiting, List.getElem?_map, occupancy_eq t, List.getElem?_drop]
  by_cases inside : k < c.written - c.read
  · have address : s.r.readAddress + BitVec.ofNat p k = BitVec.ofNat p (c.read + k) := by
      rw [ReadSide.readAddress, t.read.bin, setWidth_ofNat, BitVec.ofNat_add]
    rw [stored (c.read + k) (Nat.le_add_right _ _) (by omega), List.getElem?_range inside]
    simp only [Option.map_some, address]
  · rw [List.getElem?_eq_none (by simpa using Nat.le_of_not_lt inside),
      List.getElem?_eq_none (by omega), Option.map_none]

/-- Under a low `write_full` every commanded word is accepted. -/
theorem commanded_eq_accepted (s₀ : State d p) (input : ℕ → Edges d)
    (low : ∀ n, (states s₀ input n).w.writeFull = false) (n : ℕ) :
    commanded input n = accepted s₀ input n := by
  induction n with
  | zero => rfl
  | succ n ih =>
    have edge : commands (input n) = accepts (states s₀ input n) (input n) := by
      simp only [commands, accepts, low n, Bool.not_false, Bool.and_true]
    rw [commanded, Clocked.ledger_succ, ← commanded, ih, edge]
    rfl

/-- The read edges among the instants from `n` on, `k` instants long. -/
def readEdges (input : ℕ → Edges d) (n : ℕ) : ℕ → ℕ
  | 0 => 0
  | k + 1 => readEdges input n k + (input (n + k)).read.isSome.toNat

theorem readEdges_pos {input : ℕ → Edges d} {n k : ℕ} (h : 0 < readEdges input n k) :
    ∃ m < n + k, (input m).read.isSome = true := by
  induction k with
  | zero => exact absurd h (Nat.lt_irrefl 0)
  | succ k ih =>
    cases edge : (input (n + k)).read.isSome with
    | true => exact ⟨n + k, Nat.lt_succ_self _, edge⟩
    | false =>
      obtain ⟨m, hm, hread⟩ := ih (by simpa [readEdges, edge] using h)
      exact ⟨m, Nat.lt_succ_of_lt hm, hread⟩

/-- How far the reader has come after `edges` read edges in which nothing was written: the write
count passes the two synchronizer stages and `O_read_empty`, then every edge takes a word until
none is left. -/
structure Draining (total start edges : ℕ) (c : Counts) (s : State d p) : Prop where
  written : c.written = total
  seen1 : 1 ≤ edges → c.writeSeen1 = total
  seen : 2 ≤ edges → c.writeSeen = total
  empty : 3 ≤ edges → s.r.oReadEmpty = true → c.read = total
  start_le : start ≤ c.read
  taking : c.read = total ∨ edges + start ≤ c.read + 3

/-- One quiet instant of a reader that reads wherever it may. -/
theorem draining_step {total start edges : ℕ} {c : Counts} {s : State d p} (t : Tracks c s)
    (drain : Draining total start edges c s) {e : Edges d} (quiet : commands e = [])
    (ready : e.read = some true → Armed c s)
    (reads : 3 ≤ edges → ∀ b, e.read = some b → s.r.oReadEmpty = false → b = true) :
    Draining total start (edges + e.read.isSome.toNat) (c.next s e) (step s e) := by
  have none : accepts s e = [] := by
    cases h : e.write with
    | none => simp [accepts, h]
    | some i =>
      have low : i.iCmdWrite = false := by simpa [commands, h] using quiet
      simp [accepts, h, low]
  obtain ⟨written, seen1, seen, empty, startLe, taking⟩ := drain
  cases h : e.read with
  | none => simpa [Counts.next, step, none, takes, h] using
      ⟨written, seen1, seen, empty, startLe, taking⟩
  | some b =>
    have len := takes_length s e h
    have within := read_within t ready
    have near : c.writeSeen ≤ c.read + 2 ^ p :=
      (t.writeSeen_le.trans t.writeSeen1_le).trans t.read_le_written.2
    rw [len] at within
    have emptyIff := t.read.emptyVal_iff b within near
    simp only [Counts.next, step, h, none, List.length_nil, Nat.add_zero, Option.isSome_some,
      ↓reduceIte, len, Bool.toNat_true]
    refine ⟨written, fun _ => written, fun two => seen1 (by omega), fun three flag => ?_,
      startLe.trans (Nat.le_add_right _ _), ?_⟩
    · have computed : c.read + (b && !s.r.oReadEmpty).toNat = c.writeSeen := emptyIff.mp flag
      exact computed.trans (seen (by omega))
    · show c.read + (b && !s.r.oReadEmpty).toNat = total ∨
        edges + 1 + start ≤ c.read + (b && !s.r.oReadEmpty).toNat + 3
      by_cases three : 3 ≤ edges
      · cases flag : s.r.oReadEmpty with
        | true => exact .inl (by simpa [flag] using empty three flag)
        | false =>
          have asked := reads three b h flag
          have room := ready (asked ▸ h) flag
          have total' := seen (by omega)
          simp only [asked, Bool.not_false, Bool.and_self, Bool.toNat_true]
          rcases taking with done | going
          · omega
          · exact .inr (by omega)
      · exact .inr (by omega)

/-- Where `write_full` stays low, no write raises it. -/
theorem write_keeps {s₀ : State d p} {input : ℕ → Edges d}
    (low : ∀ n, (states s₀ input n).w.writeFull = false) (n : ℕ) (i : WriteIn d)
    (h : (input n).write = some i) (cmd : i.iCmdWrite = true)
    (_ : (states s₀ input n).w.writeFull = false) :
    (states s₀ input n).w.writeFullVal true = false := by
  have next := low (n + 1)
  simpa [states, step, h, WriteSide.next, cmd] using next

/-- **The reader gets every waiting word.** While nothing is written and the reader reads wherever
it may, three read edges and one more for each waiting word deliver all of them. -/
theorem drained (hp : 2 ≤ p) (s₀ : State d p) {input : ℕ → Edges d}
    (writer : WriterYields s₀ input) (reader : ReaderYields s₀ input) {n k : ℕ}
    (quiet : ∀ j < k, commands (input (n + j)) = [])
    (reads : ∀ j < k, ∀ b, (input (n + j)).read = some b →
      (states s₀ input (n + j)).r.oReadEmpty = false →
        (∃ m < n + j, (input m).read.isSome = true) → b = true)
    (enough : (waiting (states s₀ input n)).length + 3 ≤ readEdges input n k) :
    taken s₀ input (n + k) = commanded input n := by
  have hp' : 1 ≤ p := Nat.le_of_succ_le hp
  have low := writeFull_low hp s₀ writer reader.waits
  have kept := write_keeps low
  have drain : ∀ j ≤ k, Draining (counts s₀ input n).written (counts s₀ input n).read
      (readEdges input n j) (counts s₀ input (n + j)) (states s₀ input (n + j)) := by
    intro j hj
    induction j with
    | zero => exact ⟨rfl, fun h => absurd h (Nat.not_succ_le_zero _),
        fun h => absurd h (Nat.not_succ_le_zero _), fun h => absurd h (Nat.not_succ_le_zero _),
        le_rfl, .inr (by simp [readEdges])⟩
    | succ j ih =>
      obtain ⟨t, armed⟩ := tracks_run hp' s₀ reader.waits (n + j)
      exact draining_step t (ih (Nat.le_of_succ_le hj)) (quiet j hj)
        (fun h => armed (reader.waits _ h)) fun three b h flag =>
          reads j hj b h flag (readEdges_pos (by omega))
  have t := (tracks_run hp' s₀ reader.waits n).1
  have final := drain k le_rfl
  have caughtUp : (counts s₀ input (n + k)).read = (counts s₀ input n).written := by
    rw [waiting, List.length_map, List.length_range, occupancy_eq t] at enough
    have := t.read_le_written
    have := (tracks_run hp' s₀ reader.waits (n + k)).1.read_le_written
    have := final.written
    rcases final.taking with done | going
    · exact done
    · omega
  have same : commanded input (n + k) = commanded input n :=
    Clocked.ledger_silent _ (Nat.le_add_right n k) fun j hj hjk => by
      obtain ⟨i, rfl⟩ := Nat.exists_eq_add_of_le hj
      exact quiet i (by omega)
  have all := commanded_eq_accepted s₀ input low
  rw [(words_run hp' s₀ reader.waits kept (n + k)).2, caughtUp, ← all, same, all]
  exact List.take_of_length_le (by rw [accepted_length])

/-- **The almost-full reserve is enough.** For a writer that yields to `O_write_full` and a reader
that yields to `O_read_empty`, in every state: one slot stays free, `write_full` is low, a
commanded word advances the pointer and is stored, and the commanded words are the taken words
followed by the words waiting in the memory. A reader that then reads wherever it may gets all of
them. -/
theorem reserve_suffices (hp : 2 ≤ p) (s₀ : State d p) (input : ℕ → Edges d)
    (writer : WriterYields s₀ input) (reader : ReaderYields s₀ input) (n : ℕ) :
    ((states s₀ input n).w.writeBin - (states s₀ input n).r.readBin).toNat ≤ depth p - 1 ∧
    (states s₀ input n).w.writeFull = false ∧
    (∀ i, (input n).write = some i → i.iCmdWrite = true →
      (states s₀ input (n + 1)).w.writeBin = (states s₀ input n).w.writeBin + 1#(p + 1) ∧
      (states s₀ input (n + 1)).mem (states s₀ input n).w.writeAddress = i.iWriteData) ∧
    commanded input n = taken s₀ input n ++ waiting (states s₀ input n) ∧
    (∀ k, (∀ j < k, commands (input (n + j)) = []) →
      (∀ j < k, ∀ b, (input (n + j)).read = some b →
        (states s₀ input (n + j)).r.oReadEmpty = false →
          (∃ m < n + j, (input m).read.isSome = true) → b = true) →
      (waiting (states s₀ input n)).length + 3 ≤ readEdges input n k →
      taken s₀ input (n + k) = commanded input n) := by
  have hp' : 1 ≤ p := Nat.le_of_succ_le hp
  have low := writeFull_low hp s₀ writer reader.waits
  have kept := write_keeps low
  have t := (tracks_run hp' s₀ reader.waits n).1
  obtain ⟨stored, words⟩ := words_run hp' s₀ reader.waits kept n
  refine ⟨?_, low n, fun i h cmd => ⟨?_, ?_⟩, ?_, fun k quiet reads enough =>
    drained hp s₀ writer reader quiet reads enough⟩
  · have := (reserve_run hp s₀ writer reader.waits n).slack
    have := t.readSeen_le
    have := t.readSeen1_le
    rw [occupancy_eq t, depth]
    omega
  · have bit : BitVec.setWidth (p + 1) (BitVec.ofBool true) = 1#(p + 1) := by simp
    simp only [states, Clocked.run_succ, step, h, WriteSide.next, WriteSide.writeBinNext, cmd]
    rw [← states, low n, Bool.not_false, Bool.and_self, bit]
  · have keep := kept n i h cmd (low n)
    simp only [states, Clocked.run_succ, step, h, WriteSide.store, cmd]
    rw [← states, keep]
    simp only [Bool.not_false, Bool.and_self, ↓reduceIte]
  · rw [commanded_eq_accepted s₀ input low, words, waiting_eq t (accepted_length ..) stored,
      List.take_append_drop]

theorem reservedEdges_writer : WriterYields blank reservedEdges := by
  intro n i h _
  by_cases early : n < 3
  · interval_cases n <;> decide
  · simp [reservedEdges, early] at h

theorem reservedEdges_reader : ReaderYields blank reservedEdges := by
  intro n h
  refine ⟨?_, reservedEdges_waits n h⟩
  by_cases early : n < 3
  · simp [reservedEdges, early] at h
  · obtain ⟨late, last⟩ : 6 ≤ n ∧ n ≤ 8 := by simpa [reservedEdges, early] using h
    interval_cases n <;> decide

/-- The three words of the reserved run raise `O_write_full` and wait in the memory; three read
edges later the reader takes one at every edge. -/
theorem reserve_suffices_reserved :
    (states blank reservedEdges 3).w.oWriteFull = true ∧
    commanded reservedEdges 7 = taken blank reservedEdges 7 ++
      waiting (states blank reservedEdges 7) ∧
    taken blank reservedEdges 7 = [1#8] ∧
    taken blank reservedEdges 9 = commanded reservedEdges 3 ∧
    commanded reservedEdges 3 = [1#8, 2#8, 3#8] := by
  have suffices_at := reserve_suffices le_rfl blank reservedEdges reservedEdges_writer
    reservedEdges_reader
  have drained := (suffices_at 3).2.2.2.2 6
  refine ⟨by decide, (suffices_at 7).2.2.2.1, by decide, drained ?_ ?_ (by decide), by decide⟩
  · intro j _
    simp [reservedEdges, commands]
  · intro j lt b asked notEmpty
    interval_cases j <;> revert asked notEmpty <;> cases b <;> decide

end Teres.Rtl.AsyncFifo
