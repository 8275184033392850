import Teres.Laws.Rtl.AsyncFifo
import Mathlib.Tactic.IntervalCases

/-!
# Which words come out of the FIFO

The memory keeps the accepted words between the two pointers (`Stored`), one word in each slot,
because the writer is less than one memory ahead of the reader. The slot of the word accepted at an
edge is written only when `write_full_val` is low after counting that word, so the word that makes
the write side see a full memory advances the pointer and is not stored: `lost_word` is that run.
Where no accepted word fills the last slot the write side sees (`NeverFills`), the taken words are
a prefix of the accepted ones (`taken_prefix_accepted`).
-/

namespace Teres.Rtl.AsyncFifo

variable {d p : ℕ}

/-! ## The run -/

/-- The pointer invariant before every instant of a run, and the promise of `O_read_empty` once a
read edge has passed. -/
theorem tracks_run (hp : 1 ≤ p) (s₀ : State d p) {input : ℕ → Edges d} (waits : ReaderWaits input)
    (n : ℕ) : Tracks (counts s₀ input n) (states s₀ input n) ∧
      ((∃ m < n, (input m).read.isSome = true) →
        Armed (counts s₀ input n) (states s₀ input n)) := by
  induction n with
  | zero => exact ⟨tracks_reset s₀, fun ⟨_, h, _⟩ => absurd h (Nat.not_lt_zero _)⟩
  | succ n ih =>
    have ready : (input n).read = some true → Armed (counts s₀ input n) (states s₀ input n) :=
      fun h => ih.2 (waits n h)
    refine ⟨tracks_step hp ih.1 (input n) ready, fun ⟨m, hm, edge⟩ => ?_⟩
    refine armed_step ih.1 (input n) ready fun none => ih.2 ⟨m, ?_, edge⟩
    rcases Nat.lt_succ_iff_lt_or_eq.mp hm with lt | rfl
    · exact lt
    · rw [none] at edge; exact absurd edge (by decide)

@[simp] theorem accepted_length (s₀ : State d p) (input : ℕ → Edges d) (n : ℕ) :
    (accepted s₀ input n).length = (counts s₀ input n).written := by
  induction n with
  | zero => rfl
  | succ n ih =>
    rw [accepted, Clocked.ledger_succ, List.length_append, ← accepted, ih]
    rfl

/-! ## The memory between the pointers -/

/-- The memory holds the accepted words that have not been taken. -/
def Stored (c : Counts) (words : List (BitVec d)) (mem : BitVec p → BitVec d) : Prop :=
  ∀ k, c.read ≤ k → k < c.written → words[k]? = some (mem (BitVec.ofNat p k))

/-- What the write side counts in the memory, from its own pointer and the synchronized one. -/
def WriteSide.seenCount (w : WriteSide p) : ℕ := (w.writeBin - Gray.decode w.writeReadPtr).toNat

theorem seenCount_eq {c : Counts} {w : WriteSide p} (t : WriteTracks c w)
    (behind : c.readSeen ≤ c.written) : w.seenCount = c.written - c.readSeen := by
  rw [WriteSide.seenCount, t.bin, t.sync, Gray.decode_encode, sub_toNat behind t.within]

/-- A write to the writer's slot leaves the slots of the waiting words alone while the writer is
less than one memory ahead. -/
theorem slot_ne {a b : ℕ} (lt : a < b) (near : b < a + 2 ^ p) :
    BitVec.ofNat p a ≠ BitVec.ofNat p b := by
  rw [ne_eq, ofNat_inj_of_lap lt.le near]
  exact lt.ne

/-- **One instant keeps the memory right**, unless it accepts the word that fills the memory. -/
theorem stored_step (hp : 1 ≤ p) {c : Counts} {s : State d p} (t : Tracks c s)
    {words : List (BitVec d)} (len : words.length = c.written) (stored : Stored c words s.mem)
    {e : Edges d} (kept : ∀ i, e.write = some i → i.iCmdWrite = true → s.w.writeFull = false →
      s.w.writeFullVal true = false) :
    Stored (c.next s e) (words ++ accepts s e) (step s e).mem := by
  intro k low high
  have readLow : c.read ≤ k := le_trans (Nat.le_add_right _ _) low
  have behind : c.readSeen ≤ c.read := t.readSeen_le.trans t.readSeen1_le
  cases h : e.write with
  | none =>
    have old : k < c.written := by simpa [Counts.next, accepts, h] using high
    simpa [step, accepts, h] using stored k readLow old
  | some i =>
    have slot : s.w.writeAddress = BitVec.ofNat p c.written := by
      rw [WriteSide.writeAddress, t.write.bin, setWidth_ofNat]
    have fullIff := t.write.fullVal_iff hp t.behind
    -- a word that is already waiting keeps its place in the list and in the memory
    have waiting : k < c.written →
        (words ++ accepts s e)[k]? = some (s.w.store i s.mem (BitVec.ofNat p k)) := by
      intro old
      rw [List.getElem?_append_left (len ▸ old), stored k readLow old, WriteSide.store]
      split_ifs with writes
      · rw [Bool.and_eq_true, Bool.not_eq_true'] at writes
        have notFull : c.written + (i.iCmdWrite && !s.w.writeFull).toNat ≠ c.readSeen + 2 ^ p := by
          rw [ne_eq, ← fullIff, writes.2]
          exact Bool.false_ne_true
        have within := t.write.within_next i.iCmdWrite
        have apart := slot_ne (p := p) old (by omega)
        simp only [slot, apart, ↓reduceIte]
      · rfl
    simp only [step, h]
    by_cases accept : (i.iCmdWrite && !s.w.writeFull) = true
    · rw [Counts.next, accepts_length s e h, accept] at high
      rcases Nat.lt_succ_iff_lt_or_eq.mp high with old | rfl
      · exact waiting old
      · have new : accepts s e = [i.iWriteData] := by simp only [accepts, h, accept, ↓reduceIte]
        rw [Bool.and_eq_true, Bool.not_eq_true'] at accept
        have keep := kept i h accept.1 accept.2
        rw [new, List.getElem?_append_right len.le, len, Nat.sub_self, List.getElem?_cons_zero,
          WriteSide.store, accept.1, keep]
        simp only [Bool.not_false, Bool.and_self, slot, ↓reduceIte]
    · rw [Counts.next, accepts_length s e h, Bool.eq_false_iff.mpr accept] at high
      exact waiting high

/-- The word a read edge takes is the next waiting word. -/
theorem takes_eq {c : Counts} {s : State d p} (t : Tracks c s) {words : List (BitVec d)}
    (stored : Stored c words s.mem) {e : Edges d} (ready : e.read = some true → Armed c s) :
    takes s e = (words.drop c.read).take (takes s e).length := by
  cases h : e.read with
  | none => simp [takes, h]
  | some b =>
    cases take : b && !s.r.oReadEmpty with
    | false => simp [takes, h, take]
    | true =>
      rw [Bool.and_eq_true, Bool.not_eq_true'] at take
      obtain ⟨rfl, empty⟩ := take
      have within := ready h empty
      have next := stored c.read le_rfl
        (lt_of_lt_of_le within (t.writeSeen_le.trans t.writeSeen1_le))
      have word : takes s e = [s.mem (BitVec.ofNat p c.read)] := by
        simp [takes, h, empty, step, ReadSide.next, ReadSide.readAddress, t.read.bin]
      obtain ⟨lt, eq⟩ := List.getElem?_eq_some_iff.mp next
      rw [word, List.length_singleton, List.drop_eq_getElem_cons lt, eq, List.take_succ_cons,
        List.take_zero]

/-! ## The words of a run -/

/-- No accepted word fills the last slot that the write side sees. -/
def NeverFills (s₀ : State d p) (input : ℕ → Edges d) : Prop :=
  ∀ n i, (input n).write = some i → i.iCmdWrite = true →
    (states s₀ input n).w.writeFull = false →
      (states s₀ input n).w.seenCount ≠ depth p - 1

/-- Where the last slot is never filled, `write_full_val` is low at every accepted word. -/
theorem fullVal_low (hp : 1 ≤ p) {c : Counts} {s : State d p} (t : Tracks c s)
    (notLast : s.w.seenCount ≠ depth p - 1) (room : s.w.writeFull = false) :
    s.w.writeFullVal true = false := by
  rw [← Bool.not_eq_true, t.write.fullVal_iff hp t.behind, room]
  rw [seenCount_eq t.write t.behind, depth] at notLast
  have := Nat.two_pow_pos p
  simp only [Bool.not_false, Bool.and_self, Bool.toNat_true]
  omega

/-- The memory is right before every instant, and the taken words are the first accepted ones. -/
theorem words_run (hp : 1 ≤ p) (s₀ : State d p) {input : ℕ → Edges d} (waits : ReaderWaits input)
    (kept : ∀ n i, (input n).write = some i → i.iCmdWrite = true →
      (states s₀ input n).w.writeFull = false →
        (states s₀ input n).w.writeFullVal true = false) (n : ℕ) :
    Stored (counts s₀ input n) (accepted s₀ input n) (states s₀ input n).mem ∧
      taken s₀ input n = (accepted s₀ input n).take (counts s₀ input n).read := by
  induction n with
  | zero => exact ⟨fun k _ h => absurd h (Nat.not_lt_zero k), rfl⟩
  | succ n ih =>
    obtain ⟨stored, words⟩ := ih
    obtain ⟨tracks, armed⟩ := tracks_run hp s₀ waits n
    have ready : (input n).read = some true → Armed (counts s₀ input n) (states s₀ input n) :=
      fun h => armed (waits n h)
    have len := accepted_length s₀ input n
    refine ⟨stored_step hp tracks len stored (kept n), ?_⟩
    have within : (counts s₀ input n).read +
        (takes (states s₀ input n) (input n)).length ≤ (accepted s₀ input n).length := by
      have := read_within tracks ready
      have := tracks.writeSeen_le
      have := tracks.writeSeen1_le
      omega
    have next := takes_eq tracks stored ready
    calc taken s₀ input (n + 1)
        = (accepted s₀ input n).take (counts s₀ input n).read ++
            ((accepted s₀ input n).drop (counts s₀ input n).read).take
              (takes (states s₀ input n) (input n)).length := by
          rw [← next, ← words]; rfl
      _ = (accepted s₀ input n).take ((counts s₀ input n).read +
            (takes (states s₀ input n) (input n)).length) := (List.take_add ..).symm
      _ = (accepted s₀ input (n + 1)).take (counts s₀ input (n + 1)).read :=
          (List.take_append_of_le_length within).symm

/-- **No word is lost or altered** as long as no accepted word fills the last slot the write side
sees: the words taken are a prefix of the words accepted. -/
theorem taken_prefix_accepted (hp : 2 ≤ p) (s₀ : State d p) (input : ℕ → Edges d)
    (waits : ReaderWaits input) (never : NeverFills s₀ input) (n : ℕ) :
    taken s₀ input n <+: accepted s₀ input n := by
  have hp' : 1 ≤ p := Nat.le_of_succ_le hp
  have kept : ∀ n i, (input n).write = some i → i.iCmdWrite = true →
      (states s₀ input n).w.writeFull = false →
        (states s₀ input n).w.writeFullVal true = false := fun n i h cmd room =>
    fullVal_low hp' (tracks_run hp' s₀ waits n).1 (never n i h cmd room) room
  rw [(words_run hp' s₀ waits kept n).2]
  exact List.take_prefix _ _

/-! ## The word that fills the memory -/

/-- Four words of eight bits, all registers and slots zero. -/
def blank : State 8 2 where
  w := ⟨false, false, 0, 0, 0, 0, 0, false⟩
  r := ⟨0, false, 0, 0, 0, 0⟩
  mem := fun _ => 0

/-- Four write edges with the words one to four, then read edges, with `I_cmd_read` from the
fourth on. -/
def fillingEdges : ℕ → Edges 8 := fun n =>
  { write := if n < 4 then some ⟨true, BitVec.ofNat 8 (n + 1), true⟩ else none
    read := if n < 4 then none else some (decide (6 < n)) }

/-- Three write edges with the words one to three, then read edges, with `I_cmd_read` from the
fourth to the sixth. -/
def reservedEdges : ℕ → Edges 8 := fun n =>
  { write := if n < 3 then some ⟨true, BitVec.ofNat 8 (n + 1), true⟩ else none
    read := if n < 3 then none else some (decide (6 ≤ n ∧ n ≤ 8)) }

theorem fillingEdges_waits : ReaderWaits fillingEdges := by
  intro n h
  by_cases early : n < 4
  · simp [fillingEdges, early] at h
  · have late : 6 < n := by simpa [fillingEdges, early] using h
    exact ⟨4, by omega, rfl⟩

theorem reservedEdges_waits : ReaderWaits reservedEdges := by
  intro n h
  by_cases early : n < 3
  · simp [reservedEdges, early] at h
  · have late : 6 ≤ n ∧ n ≤ 8 := by simpa [reservedEdges, early] using h
    exact ⟨3, by omega, rfl⟩

theorem reservedEdges_never : NeverFills blank reservedEdges := by
  intro n i h _ _
  by_cases early : n < 3
  · interval_cases n <;> decide
  · simp [reservedEdges, early] at h

/-- The third word of the reserved run raises `O_write_full`, and all three are taken in turn. -/
theorem taken_prefix_accepted_reserved :
    (states blank reservedEdges 3).w.oWriteFull = true ∧
    taken blank reservedEdges 7 <+: accepted blank reservedEdges 7 ∧
    taken blank reservedEdges 7 = [1#8] ∧
    taken blank reservedEdges 9 <+: accepted blank reservedEdges 9 ∧
    taken blank reservedEdges 9 = [1#8, 2#8, 3#8] :=
  have prefixed := taken_prefix_accepted le_rfl blank reservedEdges reservedEdges_waits
    reservedEdges_never
  ⟨by decide, prefixed 7, by decide, prefixed 9, by decide⟩

/-- **The lost word.** The fourth word of the filling run advances the write pointer and is not
stored: the reader takes what the slot held before. -/
theorem lost_word : ReaderWaits fillingEdges ∧
    accepted blank fillingEdges 11 = [1#8, 2#8, 3#8, 4#8] ∧
    taken blank fillingEdges 11 = [1#8, 2#8, 3#8, 0#8] ∧
    ¬ taken blank fillingEdges 11 <+: accepted blank fillingEdges 11 :=
  ⟨fillingEdges_waits, by decide, by decide, by decide⟩

end Teres.Rtl.AsyncFifo
