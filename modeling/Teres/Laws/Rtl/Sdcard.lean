import Teres.Laws.Rtl.SpiMaster
import Teres.Rtl.Sdcard
import Mathlib.Tactic.IntervalCases

/-!
# Initialising the card

A byte goes over the wire while `sdcard` waits: it sets `spi_write` where the `spi_master` is free,
and as nothing moves it before the byte is through (`Calm.send`), every phase is bytes one after the
other. The phases of an attempt are the dummy bytes with the card not selected (`Gap`), the command
(`Command`) and the polls (`Polled`); `retry_count` bounds the attempts.
-/

namespace Teres.Rtl.Sdcard

open Teres.Clocked

variable {freq : ℕ}

/-! ## One clock edge -/

/-- The registers after the assignments in front of the `case`. -/
def Regs.settle (r : Regs) (i : In) : Regs :=
  { r with
    spiWrite := false
    spiRead := false
    oDataReady := if i.iCmdRead && r.oDataReady then false else r.oDataReady }

/-- The states in which `sdcard` waits for its `spi_master`. -/
def Regs.Waits (r : Regs) : Prop :=
  r.state = .initCard ∨ r.state = .sendCmd ∨ r.state = .cmd0Sent ∨ r.state = .cmd0Dummy

/-- Neither a reset nor a command to initialise. -/
structure In.Calm (i : In) : Prop where
  rst : i.iRstN = true
  init : i.iCmdInit = false

variable {r : Regs} {spi : Spi} {i : In}

theorem next_calm (calm : i.Calm) : r.next spi i =
    match r.state with
    | .uninit => { r.settle i with oCsN := true }
    | .idle => { r.settle i with oCsN := false }
    | .retryInit => (r.settle i).retryInit
    | .initCard => if !r.spiWrite && !spi.busy then (r.settle i).initCard else r.settle i
    | .cmd0Sent => if !r.spiWrite && !spi.busy then (r.settle i).cmd0Sent else r.settle i
    | .cmd0Dummy =>
      if !r.spiWrite && !spi.busy && !r.spiRead && spi.dataReady then
        (r.settle i).cmd0Dummy spi.receive
      else r.settle i
    | .sendCmd => if !r.spiWrite && !spi.busy then (r.settle i).sendCmd else r.settle i := by
  unfold Regs.next
  rw [calm.rst, calm.init]
  rfl

/-- **While a byte is sent nothing moves.** -/
theorem next_waits (calm : i.Calm) (waits : r.Waits)
    (sending : r.spiWrite = true ∨ spi.busy = true) : r.next spi i = r.settle i := by
  have stays : (!r.spiWrite && !spi.busy) = false := by
    rcases sending with write | busy
    · rw [write]
      rfl
    · rw [busy, Bool.not_true, Bool.and_false]
  rw [next_calm calm]
  rcases waits with state | state | state | state <;> simp [state, stays]

theorem initCard_one (step : r.step.toNat = 1) :
    r.initCard = { r with step := 0#5, oCsN := false } := by
  have one : r.step = 1#5 := BitVec.eq_of_toNat_eq step
  unfold Regs.initCard
  rw [if_pos one]
  simp [one]

theorem initCard_zero (step : r.step.toNat = 0) : r.initCard =
    { r with state := .sendCmd, nextState := .cmd0Sent, cmd := CMD0, step := 0#5 } := by
  have zero : r.step = 0#5 := BitVec.eq_of_toNat_eq step
  unfold Regs.initCard
  rw [if_neg (by rw [zero]; decide), if_pos zero]

theorem initCard_dummy (step : 1 < r.step.toNat) :
    r.initCard = { r with step := r.step - 1#5, oCsN := true }.send 0xFF#8 := by
  unfold Regs.initCard
  rw [if_neg fun one => ?_, if_neg fun zero => ?_]
  · rw [zero] at step
    exact absurd step (by decide)
  · rw [one] at step
    exact absurd step (by decide)

/-- The bytes of the command, in the order in which they are sent. -/
theorem sendCmd_byte {j : ℕ} (step : r.step.toNat = j) (below : j < 6) : r.sendCmd =
    { r with step := r.step + 1#5 }.send (r.cmd.extractLsb' (40 - 8 * j) 8) := by
  have eq : r.step = BitVec.ofNat 5 j := BitVec.eq_of_toNat_eq (by
    rw [step, BitVec.toNat_ofNat]
    exact (Nat.mod_eq_of_lt (by omega)).symm)
  unfold Regs.sendCmd
  rw [eq]
  interval_cases j <;> rfl

theorem sendCmd_over (step : r.step.toNat = 6) :
    r.sendCmd = { r with state := r.nextState, step := 0#5 } := by
  have eq : r.step = 6#5 := BitVec.eq_of_toNat_eq step
  unfold Regs.sendCmd
  rw [eq]
  rfl

theorem cmd0Dummy_again {byte : BitVec 8} (other : byte ≠ 1#8) (more : 0 < r.dummySend.toNat) :
    r.cmd0Dummy byte =
      { r with dummySend := r.dummySend - 1#5, spiRead := true }.send 0xFF#8 := by
  unfold Regs.cmd0Dummy
  rw [if_neg other, if_neg fun zero => ?_]
  rw [zero] at more
  exact absurd more (by decide)

theorem Regs.Waits.busy {s : State} (waits : s.regs.Waits) : s.oBusyWrite = true := by
  unfold State.oBusyWrite
  rcases waits with state | state | state | state <;> rw [state] <;> rfl

/-! ## Runs -/

/-- A run from edge `n₀` on without a reset or a command to initialise. -/
structure Calm (freq n₀ : ℕ) (s : ℕ → State) (i : ℕ → In) : Prop where
  next : ∀ k, n₀ ≤ k → s (k + 1) = next freq (s k) (i k)
  calm : ∀ k, n₀ ≤ k → (i k).Calm
  sound : SpiMaster.Sound (params freq) (s n₀).spi

/-- What is on the wire, edge by edge. -/
def seen (freq : ℕ) (s : ℕ → State) (i : ℕ → In) (k : ℕ) : List Event := events freq (s k) (i k)

/-- `O_busy_write` before edge `k`. -/
def Active (s : ℕ → State) (k : ℕ) : Prop := (s k).oBusyWrite = true

/-- A byte on the wire. -/
def byte (b r : BitVec 8) : List Event := (SpiMaster.sent b r).map .bit

/-- The registers `r` again, but for a read of `O_data_ready`. -/
def Regs.Same (r r' : Regs) : Prop :=
  r' = { r with spiWrite := false, spiRead := false, oDataReady := r'.oDataReady }

theorem settle_same (r : Regs) (i : In) : r.Same (r.settle i) := rfl

theorem Regs.Same.trans {r r' r'' : Regs} (h : r.Same r') (h' : r'.Same r'') : r.Same r'' := by
  unfold Regs.Same at h h' ⊢
  rw [h'.trans (by rw [h])]

/-- The `spi_master` is free. -/
structure Free (s : State) : Prop where
  state : s.spi.state = .idle
  busy : s.spi.oBusyWrite = false

/-- A byte has come in, and the registers are those of its cycle of command. -/
structure Received (byte : BitVec 8) (r : Regs) (s : State) : Prop where
  free : Free s
  dataReady : s.spi.oDataReady = true
  dataIn : s.spi.oDataIn = byte
  same : r.Same s.regs

namespace Calm

variable {n₀ n m : ℕ} {s : ℕ → State} {i : ℕ → In}

/-- The `spi_master` runs by itself. -/
theorem runs (h : Calm freq n₀ s i) : SpiMaster.Runs (params freq) n₀ (fun k => (s k).spi)
    (fun k => (s k).into (i k)) where
  next k le := by rw [h.next k le]; rfl
  rst k le := (h.calm k le).rst
  sound := h.sound

theorem regs_next (h : Calm freq n₀ s i) (le : n₀ ≤ n) :
    (s (n + 1)).regs = (s n).regs.next (s n).out (i n) := by rw [h.next n le]; rfl

/-- An edge at which `O_cs_n` stays. -/
theorem seen_same (h : Calm freq n₀ s i) (le : n₀ ≤ n)
    (same : (s (n + 1)).regs.oCsN = (s n).regs.oCsN) : seen freq s i n =
      (SpiMaster.wire (params freq) (fun k => (s k).spi) (fun k => (s k).into (i k)) n).map
        .bit := by
  rw [h.next n le] at same
  unfold seen events
  rw [if_pos same, List.append_nil]
  rfl

/-- An edge at which `O_cs_n` changes, with nothing else on the wire. -/
theorem seen_select (h : Calm freq n₀ s i) (le : n₀ ≤ n) {csN : Bool}
    (quiet : SpiMaster.wire (params freq) (fun k => (s k).spi) (fun k => (s k).into (i k)) n = [])
    (before : (s n).regs.oCsN = !csN) (after : (s (n + 1)).regs.oCsN = csN) :
    seen freq s i n = [.select csN] := by
  rw [h.next n le] at after
  have bits : SpiMaster.bits (params freq) (s n).spi ((s n).into (i n)) = [] := quiet
  unfold seen events
  rw [bits, after, before, if_neg (by cases csN <;> exact nofun)]
  rfl

/-- While the `spi_master` is busy the registers stay. -/
theorem same_during (h : Calm freq n₀ s i) (le : n₀ ≤ n) (waits : (s n).regs.Waits)
    (quiet : (s n).regs.Same (s n).regs) (le' : n ≤ m)
    (busy : ∀ k, n ≤ k → k < m → (s k).spi.oBusyWrite = true) : (s n).regs.Same (s m).regs := by
  induction m, le' using Nat.le_induction with
  | base => exact quiet
  | succ m le' ih =>
    have same := ih fun k above below => busy k above (Nat.lt_succ_of_lt below)
    have waits' : (s m).regs.Waits := by rw [same]; exact waits
    refine same.trans ?_
    rw [h.regs_next (le.trans le'),
      next_waits (h.calm m (le.trans le')) waits' (.inr (busy m le' (Nat.lt_succ_self m)))]
    exact settle_same _ _

/-- **A byte under way** comes in while the registers stay. -/
theorem underWay (h : Calm freq n₀ s i) (le : n₀ ≤ n) (waits : (s n).regs.Waits)
    (quiet : (s n).regs.Same (s n).regs) {log : List SpiMaster.Bit} {r : BitVec 8}
    (span : Span (SpiMaster.wire (params freq) (fun k => (s k).spi) fun k => (s k).into (i k))
      (SpiMaster.Busy fun k => (s k).spi) n m log) (done : SpiMaster.Done r (s m).spi) :
    Span (seen freq s i) (Active s) n (m + 1) (log.map Event.bit) ∧
      Received r (s n).regs (s (m + 1)) := by
  have busy (k : ℕ) (above : n ≤ k) (below : k < m + 1) : (s k).spi.oBusyWrite = true := by
    rcases Nat.lt_or_eq_of_le (Nat.le_of_lt_succ below) with inner | rfl
    · exact span.during k above inner
    · exact done.busy
  have same {k : ℕ} (above : n ≤ k) (below : k ≤ m + 1) : (s n).regs.Same (s k).regs :=
    h.same_during le waits quiet above fun j above' below' =>
      busy j above' (Nat.lt_of_lt_of_le below' below)
  obtain ⟨_, silent, next⟩ := h.runs.free (le.trans span.le) done.state (.inl done.busy)
  refine ⟨(span.linger done.busy silent).image (fun _ _ => List.map_append)
    (fun k above below => ?_) fun k above below => ?_, ⟨?_, ?_⟩, ?_, ?_, ?_⟩
  · refine h.seen_same (le.trans above) ?_
    rw [same (Nat.le_succ_of_le above) below, same above (Nat.le_of_lt below)]
  · refine Regs.Waits.busy ?_
    rw [same above (Nat.le_of_lt below)]
    exact waits
  · rw [next]
    exact done.state
  · rw [next]
  · rw [next]
    change ((s m).spi.oDataReady && !(s m).regs.spiRead) = true
    rw [done.dataReady, same span.le (Nat.le_succ m)]
    rfl
  · rw [next]
    exact done.dataIn
  · exact same (Nat.le_succ_of_le span.le) (Nat.le_refl _)

/-- **A byte sent**, from the cycle of `spi_write` on. -/
theorem send (h : Calm freq n₀ s i) (le : n₀ ≤ n) (free : Free (s n)) (waits : (s n).regs.Waits)
    (write : (s n).regs.spiWrite = true) :
    ∃ m r, Span (seen freq s i) (Active s) n m (byte (s n).regs.spiSend r) ∧
      Received r (s n).regs (s m) := by
  obtain ⟨silent, m, r, span, done⟩ := h.runs.transfer rfl le free.state free.busy write
  have same : (s n).regs.Same (s (n + 1)).regs := by
    rw [h.regs_next le, next_waits (h.calm n le) waits (.inl write)]
    exact settle_same _ _
  have waits' : (s (n + 1)).regs.Waits := by rw [same]; exact waits
  obtain ⟨span', received⟩ := h.underWay (Nat.le_succ_of_le le) waits' (by rw [same]; rfl) span done
  have quiet : seen freq s i n = [] := by
    rw [h.seen_same le (by rw [same]), silent]
    rfl
  exact ⟨m + 1, r, span'.skip waits.busy quiet, received.free, received.dataReady, received.dataIn,
    same.trans received.same⟩

/-- An edge at which nothing is sent leaves the `spi_master` free. -/
theorem free_next (h : Calm freq n₀ s i) (le : n₀ ≤ n) (free : Free (s n))
    (write : (s n).regs.spiWrite = false) : Free (s (n + 1)) ∧
      SpiMaster.wire (params freq) (fun k => (s k).spi) (fun k => (s k).into (i k)) n = [] := by
  obtain ⟨_, silent, next⟩ := h.runs.free le free.state (.inr write)
  refine ⟨⟨?_, ?_⟩, silent⟩
  · rw [next]
    exact free.state
  · rw [next]

/-- Where `O_cs_n` stays too, there is nothing on the wire. -/
theorem quiet_next (h : Calm freq n₀ s i) (le : n₀ ≤ n) (free : Free (s n))
    (write : (s n).regs.spiWrite = false) (same : (s (n + 1)).regs.oCsN = (s n).regs.oCsN) :
    Free (s (n + 1)) ∧ seen freq s i n = [] := by
  obtain ⟨free', silent⟩ := h.free_next le free write
  refine ⟨free', ?_⟩
  rw [h.seen_same le same, silent]
  rfl

/-- **The byte that a cycle of the free `spi_master` sets** goes over the wire. -/
theorem sends (h : Calm freq n₀ s i) (le : n₀ ≤ n) (free : Free (s n))
    (write : (s n).regs.spiWrite = false) (waits : (s n).regs.Waits) {r : Regs}
    (next : (s (n + 1)).regs = r) (waits' : r.Waits) (write' : r.spiWrite = true)
    (same : r.oCsN = (s n).regs.oCsN) : ∃ m b,
      Span (seen freq s i) (Active s) n m (byte r.spiSend b) ∧ Received b r (s m) := by
  subst next
  obtain ⟨free', quiet⟩ := h.quiet_next le free write same
  obtain ⟨m, b, span, received⟩ := h.send (Nat.le_succ_of_le le) free' waits' write'
  exact ⟨m, b, span.skip waits.busy quiet, received⟩

end Calm

/-! ## Phases -/

/-- `sdcard` is not in a cycle of command, and its `spi_master` is free. -/
structure Rests (s : State) : Prop where
  free : Free s
  write : s.regs.spiWrite = false
  read : s.regs.spiRead = false

theorem Received.rests {b : BitVec 8} {r : Regs} {s : State} (h : Received b r s) : Rests s :=
  ⟨h.free, by rw [h.same], by rw [h.same]⟩

/-- `g` dummy bytes are to come with the card not selected, in the attempt numbered `c`. -/
structure Gap (g c : ℕ) (s : State) : Prop where
  rests : Rests s
  state : s.regs.state = .initCard
  step : s.regs.step.toNat = g + 1
  csN : s.regs.oCsN = true
  count : s.regs.retryCount.toNat = c

/-- The command is to come from its byte `j` on. -/
structure Command (j c : ℕ) (s : State) : Prop where
  rests : Rests s
  state : s.regs.state = .sendCmd
  step : s.regs.step.toNat = j
  cmd : s.regs.cmd = CMD0
  nextState : s.regs.nextState = .cmd0Sent
  csN : s.regs.oCsN = false
  count : s.regs.retryCount.toNat = c

/-- The command is through. -/
structure Commanded (c : ℕ) (s : State) : Prop where
  rests : Rests s
  state : s.regs.state = .cmd0Sent
  csN : s.regs.oCsN = false
  count : s.regs.retryCount.toNat = c

/-- The byte `r` has been polled, and there are `d` polls left. -/
structure Polled (d c : ℕ) (r : BitVec 8) (s : State) : Prop where
  rests : Rests s
  state : s.regs.state = .cmd0Dummy
  left : s.regs.dummySend.toNat = d
  dataReady : s.spi.oDataReady = true
  dataIn : s.spi.oDataIn = r
  csN : s.regs.oCsN = false
  count : s.regs.retryCount.toNat = c

/-- `sdcard` has stopped, with the card selected if it has answered. -/
structure Stopped (answered : Bool) (s : State) : Prop where
  free : Free s
  write : s.regs.spiWrite = false
  state : s.regs.state = if answered then .idle else .uninit
  csN : s.regs.oCsN = !answered

/-- The bytes of the command. -/
def commandBytes : List (BitVec 8) := [0x40#8, 0x00#8, 0x00#8, 0x00#8, 0x00#8, 0x95#8]

theorem commandBytes_drop {j : ℕ} (below : j < 6) : commandBytes.drop j =
    CMD0.extractLsb' (40 - 8 * j) 8 :: commandBytes.drop (j + 1) := by
  interval_cases j <;> decide

namespace Calm

variable {n₀ n m : ℕ} {s : ℕ → State} {i : ℕ → In}

theorem initCard_next (h : Calm freq n₀ s i) (le : n₀ ≤ n) (rests : Rests (s n))
    (state : (s n).regs.state = .initCard) :
    (s (n + 1)).regs = ((s n).regs.settle (i n)).initCard := by
  rw [h.regs_next le, next_calm (h.calm n le), state]
  simp [State.out, rests.write, rests.free.busy]

theorem sendCmd_next (h : Calm freq n₀ s i) (le : n₀ ≤ n) (rests : Rests (s n))
    (state : (s n).regs.state = .sendCmd) :
    (s (n + 1)).regs = ((s n).regs.settle (i n)).sendCmd := by
  rw [h.regs_next le, next_calm (h.calm n le), state]
  simp [State.out, rests.write, rests.free.busy]

theorem cmd0Sent_next (h : Calm freq n₀ s i) (le : n₀ ≤ n) (rests : Rests (s n))
    (state : (s n).regs.state = .cmd0Sent) :
    (s (n + 1)).regs = ((s n).regs.settle (i n)).cmd0Sent := by
  rw [h.regs_next le, next_calm (h.calm n le), state]
  simp [State.out, rests.write, rests.free.busy]

theorem cmd0Dummy_next (h : Calm freq n₀ s i) (le : n₀ ≤ n) (rests : Rests (s n))
    (state : (s n).regs.state = .cmd0Dummy) (ready : (s n).spi.oDataReady = true) :
    (s (n + 1)).regs = ((s n).regs.settle (i n)).cmd0Dummy (s n).spi.oDataIn := by
  rw [h.regs_next le, next_calm (h.calm n le), state]
  simp [State.out, rests.write, rests.read, rests.free.busy, ready]

/-- The card is selected, and one edge later the command begins. -/
theorem select (h : Calm freq n₀ s i) (le : n₀ ≤ n) {c : ℕ} (at_ : Gap 0 c (s n)) :
    Span (seen freq s i) (Active s) n (n + 1 + 1) [.select false] ∧
      Command 0 c (s (n + 1 + 1)) := by
  have le' := Nat.le_succ_of_le le
  have next := (h.initCard_next le at_.rests at_.state).trans (initCard_one at_.step)
  obtain ⟨free, silent⟩ := h.free_next le at_.rests.free at_.rests.write
  have selects : seen freq s i n = [.select false] :=
    h.seen_select le silent at_.csN (by rw [next])
  have rests' : Rests (s (n + 1)) := ⟨free, by rw [next]; rfl, by rw [next]; rfl⟩
  have state' : (s (n + 1)).regs.state = .initCard := by rw [next]; exact at_.state
  have zero : ((s (n + 1)).regs.settle (i (n + 1))).step.toNat = 0 := by
    change (s (n + 1)).regs.step.toNat = 0
    rw [next]
    rfl
  have next' := (h.initCard_next le' rests' state').trans (initCard_zero zero)
  obtain ⟨free', quiet⟩ := h.quiet_next le' free rests'.write (by rw [next']; rfl)
  refine ⟨?_, ⟨free', ?_, ?_⟩, ?_, ?_, ?_, ?_, ?_, ?_⟩
  · have first := (Span.refl (seen freq s i) (Active s) n).snoc (Regs.Waits.busy (.inl at_.state))
    rw [selects] at first
    exact first.linger (Regs.Waits.busy (.inl state')) quiet
  · rw [next']
    rfl
  · rw [next']
    rfl
  · rw [next']
  · rw [next']
    rfl
  · rw [next']
  · rw [next']
  · rw [next']
    change (s (n + 1)).regs.oCsN = false
    rw [next]
  · rw [next']
    change (s (n + 1)).regs.retryCount.toNat = c
    rw [next]
    exact at_.count

/-- One dummy byte with the card not selected. -/
theorem dummy (h : Calm freq n₀ s i) (le : n₀ ≤ n) {g c : ℕ} (at_ : Gap (g + 1) c (s n)) :
    ∃ m r, Span (seen freq s i) (Active s) n m (byte 0xFF#8 r) ∧ Gap g c (s m) := by
  have step := at_.step
  have next := (h.initCard_next le at_.rests at_.state).trans
    (initCard_dummy (show 1 < (s n).regs.step.toNat by omega))
  obtain ⟨m, r, span, received⟩ := h.sends le at_.rests.free at_.rests.write (.inl at_.state) next
    (.inl at_.state) rfl at_.csN.symm
  have same : (s m).regs = _ := received.same
  refine ⟨m, r, span, received.rests, ?_, ?_, ?_, ?_⟩
  · rw [same]
    exact at_.state
  · rw [same]
    change ((s n).regs.step - 1#5).toNat = g + 1
    rw [BitVec.toNat_sub_of_le (BitVec.le_def.2 (by rw [step]; exact Nat.succ_pos _)), step]
    rfl
  · rw [same]
    rfl
  · rw [same]
    exact at_.count

/-- **The dummy bytes**, and then the card is selected. -/
theorem gap (h : Calm freq n₀ s i) {g c : ℕ} (le : n₀ ≤ n) (at_ : Gap g c (s n)) :
    ∃ (m : ℕ) (rs : List (BitVec 8)), rs.length = g ∧
      Span (seen freq s i) (Active s) n m (rs.flatMap (byte 0xFF#8) ++ [.select false]) ∧
      Command 0 c (s m) := by
  induction g generalizing n with
  | zero =>
    obtain ⟨span, command⟩ := h.select le at_
    exact ⟨_, [], rfl, span, command⟩
  | succ g ih =>
    obtain ⟨m₁, r, span₁, at₁⟩ := h.dummy le at_
    obtain ⟨m, rs, length, span, command⟩ := ih (le.trans span₁.le) at₁
    refine ⟨m, r :: rs, congrArg (· + 1) length, ?_, command⟩
    rw [List.flatMap_cons, List.append_assoc]
    exact span₁.trans span

/-- One byte of the command. -/
theorem commandByte (h : Calm freq n₀ s i) (le : n₀ ≤ n) {j c : ℕ} (at_ : Command j c (s n))
    (below : j < 6) : ∃ m r,
      Span (seen freq s i) (Active s) n m (byte (CMD0.extractLsb' (40 - 8 * j) 8) r) ∧
        Command (j + 1) c (s m) := by
  have step := at_.step
  have next := (h.sendCmd_next le at_.rests at_.state).trans
    (sendCmd_byte (show ((s n).regs.settle (i n)).step.toNat = j from step) below)
  obtain ⟨m, r, span, received⟩ := h.sends le at_.rests.free at_.rests.write
    (.inr (.inl at_.state)) next (.inr (.inl at_.state)) rfl rfl
  have same : (s m).regs = _ := received.same
  have cmd : ((s n).regs.settle (i n)).cmd = CMD0 := at_.cmd
  rw [cmd] at span
  refine ⟨m, r, span, received.rests, ?_, ?_, ?_, ?_, ?_, ?_⟩
  · rw [same]
    exact at_.state
  · rw [same]
    change ((s n).regs.step + 1#5).toNat = j + 1
    rw [SpiMaster.step_succ (by omega), step]
  · rw [same]
    exact at_.cmd
  · rw [same]
    exact at_.nextState
  · rw [same]
    exact at_.csN
  · rw [same]
    exact at_.count

/-- **The command** from a byte on. -/
theorem command (h : Calm freq n₀ s i) (le : n₀ ≤ n) {j c : ℕ} (at_ : Command j c (s n)) {x : ℕ}
    (left : j + x = 6) : ∃ (m : ℕ) (rs : List (BitVec 8)), rs.length = x ∧
      Span (seen freq s i) (Active s) n m (List.zipWith byte (commandBytes.drop j) rs).flatten ∧
      Commanded c (s m) := by
  induction x generalizing n j with
  | zero =>
    obtain rfl : j = 6 := left
    have next := (h.sendCmd_next le at_.rests at_.state).trans
      (sendCmd_over (show ((s n).regs.settle (i n)).step.toNat = 6 from at_.step))
    obtain ⟨free, quiet⟩ :=
      h.quiet_next le at_.rests.free at_.rests.write (by rw [next]; rfl)
    refine ⟨n + 1, [], rfl, ?_, ⟨free, ?_, ?_⟩, ?_, ?_, ?_⟩
    · exact (Span.refl _ _ n).linger (Regs.Waits.busy (.inr (.inl at_.state))) quiet
    · rw [next]
      rfl
    · rw [next]
      rfl
    · rw [next]
      exact at_.nextState
    · rw [next]
      exact at_.csN
    · rw [next]
      exact at_.count
  | succ x ih =>
    obtain ⟨m₁, r, span₁, at₁⟩ := h.commandByte le at_ (by omega)
    obtain ⟨m, rs, length, span, commanded⟩ := ih (le.trans span₁.le) at₁ (by omega)
    refine ⟨m, r :: rs, congrArg (· + 1) length, ?_, commanded⟩
    rw [commandBytes_drop (by omega), List.zipWith_cons_cons, List.flatten_cons]
    exact span₁.trans span

/-- **The first poll.** -/
theorem poll (h : Calm freq n₀ s i) (le : n₀ ≤ n) {c : ℕ} (at_ : Commanded c (s n)) :
    ∃ m r, Span (seen freq s i) (Active s) n m (byte 0xFF#8 r) ∧ Polled 9 c r (s m) := by
  obtain ⟨m, r, span, received⟩ := h.sends le at_.rests.free at_.rests.write
    (.inr (.inr (.inl at_.state))) (h.cmd0Sent_next le at_.rests at_.state)
    (.inr (.inr (.inr rfl))) rfl rfl
  have same : (s m).regs = _ := received.same
  refine ⟨m, r, span, received.rests, ?_, ?_, received.dataReady, received.dataIn, ?_, ?_⟩
  · rw [same]
    rfl
  · rw [same]
    rfl
  · rw [same]
    exact at_.csN
  · rw [same]
    exact at_.count

/-- **Another poll**, after a byte that is no answer. -/
theorem pollAgain (h : Calm freq n₀ s i) (le : n₀ ≤ n) {d c : ℕ} {r : BitVec 8}
    (at_ : Polled (d + 1) c r (s n)) (other : r ≠ 1#8) :
    ∃ m r', Span (seen freq s i) (Active s) n m (byte 0xFF#8 r') ∧ Polled d c r' (s m) := by
  have left := at_.left
  have next := h.cmd0Dummy_next le at_.rests at_.state at_.dataReady
  rw [at_.dataIn, cmd0Dummy_again other (by change 0 < (s n).regs.dummySend.toNat; omega)] at next
  obtain ⟨m, r', span, received⟩ := h.sends le at_.rests.free at_.rests.write
    (.inr (.inr (.inr at_.state))) next (.inr (.inr (.inr at_.state))) rfl rfl
  have same : (s m).regs = _ := received.same
  refine ⟨m, r', span, received.rests, ?_, ?_, received.dataReady, received.dataIn, ?_, ?_⟩
  · rw [same]
    exact at_.state
  · rw [same]
    change ((s n).regs.dummySend - 1#5).toNat = d
    rw [BitVec.toNat_sub_of_le (BitVec.le_def.2 (by rw [left]; exact Nat.succ_pos _)), left]
    rfl
  · rw [same]
    exact at_.csN
  · rw [same]
    exact at_.count

/-- **The polls** up to an answer or the last one. -/
theorem polls (h : Calm freq n₀ s i) (le : n₀ ≤ n) {d c : ℕ} {r : BitVec 8}
    (at_ : Polled d c r (s n)) : ∃ (m : ℕ) (rs : List (BitVec 8)) (d' : ℕ) (r' : BitVec 8),
      Span (seen freq s i) (Active s) n m (rs.flatMap (byte 0xFF#8)) ∧ Polled d' c r' (s m) ∧
        (r' = 1#8 ∨ d' = 0) ∧ rs.length + d' = d ∧ (r :: rs).getLast? = some r' ∧
        1#8 ∉ (r :: rs).dropLast := by
  induction d generalizing n r with
  | zero => exact ⟨n, [], 0, r, .refl _ _ n, at_, .inr rfl, rfl, rfl, List.not_mem_nil⟩
  | succ d ih =>
    by_cases answer : r = 1#8
    · exact ⟨n, [], d + 1, r, .refl _ _ n, at_, .inl answer, Nat.zero_add _, rfl, List.not_mem_nil⟩
    · obtain ⟨m₁, r₁, span₁, at₁⟩ := h.pollAgain le at_ answer
      obtain ⟨m, rs, d', r', span, at', ended, length, last, none⟩ := ih (le.trans span₁.le) at₁
      refine ⟨m, r₁ :: rs, d', r', span₁.trans span, at', ended, ?_, last, ?_⟩
      · rw [List.length_cons]
        omega
      · rw [List.dropLast_cons_cons]
        exact fun mem => (List.mem_cons.1 mem).elim (fun eq => answer eq.symm) none

/-- **An answer** ends the attempts. -/
theorem answered (h : Calm freq n₀ s i) (le : n₀ ≤ n) {d c : ℕ} (at_ : Polled d c 1#8 (s n)) :
    Span (seen freq s i) (Active s) n (n + 1) [] ∧ Stopped true (s (n + 1)) := by
  have next := h.cmd0Dummy_next le at_.rests at_.state at_.dataReady
  unfold Regs.cmd0Dummy at next
  rw [at_.dataIn, if_pos rfl] at next
  obtain ⟨free, quiet⟩ := h.quiet_next le at_.rests.free at_.rests.write (by rw [next]; rfl)
  refine ⟨(Span.refl _ _ n).linger (Regs.Waits.busy (.inr (.inr (.inr at_.state)))) quiet, free,
    ?_, ?_, ?_⟩
  · rw [next]
    rfl
  · rw [next]
    rfl
  · rw [next]
    exact at_.csN

/-- **No answer** to the last poll: the card is no longer selected, and there is another attempt, or
none is left. -/
theorem refused (h : Calm freq n₀ s i) (le : n₀ ≤ n) {c : ℕ} {r : BitVec 8}
    (at_ : Polled 0 c r (s n)) (other : r ≠ 1#8) :
    Span (seen freq s i) (Active s) n (n + 1 + 1) [.select true] ∧
      (c = 15 → Stopped false (s (n + 1 + 1))) ∧ (c < 15 → Gap 1 (c + 1) (s (n + 1 + 1))) := by
  have le' := Nat.le_succ_of_le le
  have next := h.cmd0Dummy_next le at_.rests at_.state at_.dataReady
  have zero : ((s n).regs.settle (i n)).dummySend = 0#5 := BitVec.eq_of_toNat_eq at_.left
  unfold Regs.cmd0Dummy at next
  rw [at_.dataIn, if_neg other, if_pos zero] at next
  obtain ⟨free, quiet⟩ := h.quiet_next le at_.rests.free at_.rests.write (by rw [next]; rfl)
  have state : (s (n + 1)).regs.state = .retryInit := by rw [next]
  have active : Active s (n + 1) := by
    unfold Active State.oBusyWrite
    rw [state]
    rfl
  have write : (s (n + 1)).regs.spiWrite = false := by
    rw [next]
    rfl
  have count : (s (n + 1)).regs.retryCount.toNat = c := by
    rw [next]
    exact at_.count
  have next' : (s (n + 1 + 1)).regs = ((s (n + 1)).regs.settle (i (n + 1))).retryInit := by
    rw [h.regs_next le', next_calm (h.calm _ le'), state]
  obtain ⟨free', silent'⟩ := h.free_next le' free write
  have select (csN : (s (n + 1 + 1)).regs.oCsN = true) :
      Span (seen freq s i) (Active s) n (n + 1 + 1) [.select true] := by
    have before : (s (n + 1)).regs.oCsN = !true := by
      rw [next]
      exact at_.csN
    have both := ((Span.refl (seen freq s i) (Active s) n).linger
      (Regs.Waits.busy (.inr (.inr (.inr at_.state)))) quiet).snoc active
    rw [h.seen_select le' silent' before csN] at both
    exact both
  unfold Regs.retryInit at next'
  by_cases last : (s (n + 1)).regs.retryCount = 15#5
  · rw [if_pos (show ((s (n + 1)).regs.settle _).retryCount = 15#5 from last)] at next'
    rw [last] at count
    refine ⟨select (by rw [next']), fun _ => ⟨free', ?_, ?_, ?_⟩, fun more => ?_⟩
    · rw [next']
      rfl
    · rw [next']
      rfl
    · rw [next']
      rfl
    · exact absurd count (Nat.ne_of_gt more)
  · rw [if_neg (show ((s (n + 1)).regs.settle _).retryCount ≠ 15#5 from last)] at next'
    refine ⟨select (by rw [next']), fun ended => ?_, fun more => ⟨⟨free', ?_, ?_⟩, ?_, ?_, ?_, ?_⟩⟩
    · exact absurd (BitVec.eq_of_toNat_eq (y := 15#5) (count.trans ended)) last
    · rw [next']
      rfl
    · rw [next']
      rfl
    · rw [next']
    · rw [next']
      rfl
    · rw [next']
    · rw [next']
      change ((s (n + 1)).regs.retryCount + 1#5).toNat = c + 1
      rw [SpiMaster.step_succ (by omega), count]

end Calm

/-! ## Attempts -/

/-- What comes back in an attempt: while the dummy bytes, the command and the polls are sent. -/
structure Attempt where
  gap : List (BitVec 8)
  command : List (BitVec 8)
  polls : List (BitVec 8)

/-- The card has answered the last poll. -/
def Attempt.Answered (a : Attempt) : Prop := a.polls.getLast? = some 1#8

instance (a : Attempt) : Decidable a.Answered := inferInstanceAs (Decidable (_ = _))

/-- **An attempt on the wire**: dummy bytes with the card not selected, then with the card selected
the command and the polls; without an answer the card is no longer selected. -/
def Attempt.log (a : Attempt) : List Event :=
  a.gap.flatMap (byte 0xFF#8) ++ [.select false] ++
    (List.zipWith byte commandBytes a.command).flatten ++ a.polls.flatMap (byte 0xFF#8) ++
    if a.Answered then [] else [.select true]

/-- An attempt with `g` dummy bytes: the command, and one to ten polls that go on until the card
answers. -/
structure Attempt.Made (g : ℕ) (a : Attempt) : Prop where
  gap : a.gap.length = g
  command : a.command.length = 6
  polls : 1 ≤ a.polls.length ∧ a.polls.length ≤ 10
  until_ : 1#8 ∉ a.polls.dropLast
  ended : a.Answered ∨ a.polls.length = 10

/-- **One attempt.** -/
theorem Calm.attempt {n₀ n : ℕ} {s : ℕ → State} {i : ℕ → In} (h : Calm freq n₀ s i) (le : n₀ ≤ n)
    {g c : ℕ} (at_ : Gap g c (s n)) : ∃ (m : ℕ) (a : Attempt), a.Made g ∧
      Span (seen freq s i) (Active s) n m a.log ∧ (a.Answered → Stopped true (s m)) ∧
        (¬a.Answered → (c = 15 → Stopped false (s m)) ∧ (c < 15 → Gap 1 (c + 1) (s m))) := by
  obtain ⟨m₁, gap, gapLength, span₁, at₁⟩ := h.gap le at_
  have le₁ := le.trans span₁.le
  obtain ⟨m₂, command, commandLength, span₂, at₂⟩ := h.command le₁ at₁ (x := 6) rfl
  have le₂ := le₁.trans span₂.le
  obtain ⟨m₃, r, span₃, at₃⟩ := h.poll le₂ at₂
  have le₃ := le₂.trans span₃.le
  obtain ⟨m₄, rs, d, r', span₄, at₄, ended, length, last, until_⟩ := h.polls le₃ at₃
  have le₄ := le₃.trans span₄.le
  have span := ((span₁.trans span₂).trans span₃).trans span₄
  by_cases answer : r' = 1#8
  · subst answer
    obtain ⟨span₅, stopped⟩ := h.answered le₄ at₄
    have answered : Attempt.Answered ⟨gap, command, r :: rs⟩ := last
    refine ⟨m₄ + 1, ⟨gap, command, r :: rs⟩, ⟨gapLength, commandLength, ?_, until_, .inl last⟩, ?_,
      fun _ => stopped, fun none => absurd answered none⟩
    · simp only [List.length_cons]
      omega
    · unfold Attempt.log
      rw [if_pos answered, List.append_nil, List.flatMap_cons, ← List.append_assoc]
      have joined := span.trans span₅
      rw [List.append_nil] at joined
      exact joined
  · obtain rfl := ended.resolve_left answer
    obtain ⟨span₅, stops, goes⟩ := h.refused le₄ at₄ answer
    have none : ¬Attempt.Answered ⟨gap, command, r :: rs⟩ := fun answered =>
      answer (Option.some.inj (last.symm.trans answered))
    refine ⟨m₄ + 1 + 1, ⟨gap, command, r :: rs⟩,
      ⟨gapLength, commandLength, ?_, until_, .inr ?_⟩, ?_,
      fun answered => absurd answered none, fun _ => ⟨stops, goes⟩⟩
    · simp only [List.length_cons]
      omega
    · simp only [List.length_cons]
      omega
    · unfold Attempt.log
      rw [if_neg none, List.flatMap_cons, ← List.append_assoc]
      exact span.trans span₅

/-- The attempts that are made where `x` are left: they go on until the card answers. -/
inductive Tries : ℕ → ℕ → List Attempt → Bool → Prop where
  | answered {x g : ℕ} {a : Attempt} : a.Made g → a.Answered → Tries (x + 1) g [a] true
  | refused {g : ℕ} {a : Attempt} : a.Made g → ¬a.Answered → Tries 1 g [a] false
  | again {x g : ℕ} {a : Attempt} {rest : List Attempt} {answered : Bool} : a.Made g →
      ¬a.Answered → Tries x 1 rest answered → Tries (x + 1) g (a :: rest) answered

/-- **The attempts**, up to an answer or the last one. -/
theorem Calm.tries {n₀ n : ℕ} {s : ℕ → State} {i : ℕ → In} (h : Calm freq n₀ s i) (le : n₀ ≤ n)
    {x g c : ℕ} (left : c + x = 15) (at_ : Gap g c (s n)) :
    ∃ (m : ℕ) (l : List Attempt) (answered : Bool), Tries (x + 1) g l answered ∧
      Span (seen freq s i) (Active s) n m (l.flatMap Attempt.log) ∧ Stopped answered (s m) := by
  induction x generalizing n g c with
  | zero =>
    obtain ⟨m, a, made, span, answered, refused⟩ := h.attempt le at_
    have log : [a].flatMap Attempt.log = a.log := List.flatMap_singleton ..
    by_cases answer : a.Answered
    · exact ⟨m, [a], true, .answered made answer, log ▸ span, answered answer⟩
    · exact ⟨m, [a], false, .refused made answer, log ▸ span, (refused answer).1 left⟩
  | succ x ih =>
    obtain ⟨m, a, made, span, answered, refused⟩ := h.attempt le at_
    by_cases answer : a.Answered
    · have log : [a].flatMap Attempt.log = a.log := List.flatMap_singleton ..
      exact ⟨m, [a], true, .answered made answer, log ▸ span, answered answer⟩
    · obtain ⟨m', l, answered, tries, span', stopped⟩ :=
        ih (le.trans span.le) (by omega) ((refused answer).2 (by omega))
      exact ⟨m', a :: l, answered, .again made answer tries, span.trans span', stopped⟩

/-! ## The whole session -/

/-- An attempt without an answer has ten polls, none of which is one. -/
theorem Attempt.Made.refused {g : ℕ} {a : Attempt} (made : a.Made g) (none : ¬a.Answered) :
    1#8 ∉ a.polls ∧ a.polls.length = 10 := by
  refine ⟨fun mem => ?_, made.ended.resolve_left none⟩
  have some_ : a.polls ≠ [] := List.length_pos_iff.1 made.polls.1
  rw [← List.dropLast_append_getLast some_, List.mem_append, List.mem_singleton] at mem
  refine mem.elim made.until_ fun last => none ?_
  unfold Attempt.Answered
  rw [List.getLast?_eq_some_getLast some_, ← last]

/-- **What the attempts amount to.** -/
structure Session (x g : ℕ) (first : Attempt) (rest : List Attempt) : Prop where
  made : first.Made g
  others : ∀ a ∈ rest, a.Made 1
  attempts : (first :: rest).length ≤ x
  again : ∀ a ∈ (first :: rest).dropLast, ¬a.Answered

theorem Tries.isSession {x g : ℕ} {l : List Attempt} {answered : Bool} (h : Tries x g l answered) :
    ∃ first rest, l = first :: rest ∧ Session x g first rest := by
  induction h with
  | answered made _ => exact ⟨_, [], rfl, made, nofun, Nat.succ_pos _, nofun⟩
  | refused made _ => exact ⟨_, [], rfl, made, nofun, Nat.le_refl 1, nofun⟩
  | again made none _ ih =>
    obtain ⟨first, rest, rfl, session⟩ := ih
    refine ⟨_, _, rfl, made, fun b mem => ?_, Nat.succ_le_succ session.attempts, fun b mem => ?_⟩
    · rcases List.mem_cons.1 mem with rfl | mem
      · exact session.made
      · exact session.others b mem
    · rw [List.dropLast_cons_cons] at mem
      rcases List.mem_cons.1 mem with rfl | mem
      · exact none
      · exact session.again b mem

/-- The polls end with an answer, or all that are made are without one. -/
theorem Tries.polled {x g : ℕ} {l : List Attempt} {answered : Bool} (h : Tries x g l answered) :
    if answered then (l.flatMap Attempt.polls).getLast? = some 1#8
    else 1#8 ∉ l.flatMap Attempt.polls ∧ (l.flatMap Attempt.polls).length = x * 10 := by
  induction h with
  | answered _ answer =>
    rw [if_pos rfl, List.flatMap_singleton]
    exact answer
  | refused made none =>
    rw [if_neg nofun, List.flatMap_singleton]
    exact made.refused none
  | again made none _ ih =>
    obtain ⟨without, ten⟩ := made.refused none
    rw [List.flatMap_cons]
    split_ifs at ih ⊢
    · rw [List.getLast?_append, ih]
      rfl
    · rw [List.mem_append, List.length_append, ten, ih.2, Nat.succ_mul, Nat.add_comm]
      exact ⟨not_or.2 ⟨without, ih.1⟩, rfl⟩

/-- **Stopped for good**, with nothing on the wire. -/
theorem Calm.stopped {n₀ n m : ℕ} {s : ℕ → State} {i : ℕ → In} (h : Calm freq n₀ s i)
    (le : n₀ ≤ n) {answered : Bool} (stopped : Stopped answered (s n)) (le' : n ≤ m) :
    Stopped answered (s m) ∧ seen freq s i m = [] := by
  have step {k : ℕ} (le : n₀ ≤ k) (stopped : Stopped answered (s k)) :
      Stopped answered (s (k + 1)) ∧ seen freq s i k = [] := by
    have next : (s (k + 1)).regs = { (s k).regs.settle (i k) with oCsN := !answered } := by
      rw [h.regs_next le, next_calm (h.calm k le), stopped.state]
      cases answered <;> rfl
    obtain ⟨free, quiet⟩ :=
      h.quiet_next le stopped.free stopped.write (by rw [next, stopped.csN])
    refine ⟨⟨free, by rw [next]; rfl, ?_, by rw [next]⟩, quiet⟩
    rw [next]
    exact stopped.state
  have always : Stopped answered (s m) := by
    induction m, le' using Nat.le_induction with
    | base => exact stopped
    | succ m le' ih => exact (step (le.trans le') ih).1
  exact ⟨always, (step (le.trans le') always).2⟩

/-! ## From reset on -/

/-- Every reachable state has a `spi_master` in order. -/
theorem states_sound (freq : ℕ) (memory : State) (input : ℕ → In) (n : ℕ) :
    SpiMaster.Sound (params freq) (states freq memory input n).spi :=
  run_induction (P := fun _ (s : State) => SpiMaster.Sound (params freq) s.spi)
    (SpiMaster.reset_sound memory.spi) (fun _ sound => SpiMaster.next_sound sound _) n

/-- **After the pulse** a byte that is under way goes on, and then come the dummy bytes. -/
theorem Calm.begin {n₀ : ℕ} {s : ℕ → State} {i : ℕ → In} (h : Calm freq n₀ s i) {r : Regs}
    (init : (s n₀).regs = r.init) : ∃ (m : ℕ) (under : List SpiMaster.Bit),
      under.length = (s n₀).spi.left ∧
        Span (seen freq s i) (Active s) n₀ m (under.map Event.bit) ∧ Gap 10 0 (s m) := by
  have waits : (s n₀).regs.Waits := .inl (by rw [init]; rfl)
  have quiet : (s n₀).regs.Same (s n₀).regs := by rw [init]; rfl
  have le := Nat.le_refl n₀
  have gap {m : ℕ} (free : Free (s m)) (same : (s n₀).regs.Same (s m).regs) : Gap 10 0 (s m) := by
    rw [init] at same
    exact ⟨⟨free, by rw [same], by rw [same]⟩, by rw [same]; rfl, by rw [same]; rfl,
      by rw [same]; rfl, by rw [same]; rfl⟩
  by_cases idle : (s n₀).spi.state = .idle
  · have left : (s n₀).spi.left = 0 := by
      unfold SpiMaster.State.left
      rw [idle]
    cases busy : (s n₀).spi.oBusyWrite with
    | false => exact ⟨n₀, [], left.symm, .refl _ _ n₀, gap ⟨idle, busy⟩ quiet⟩
    | true =>
      obtain ⟨_, silent, next⟩ := h.runs.free le idle (.inl busy)
      have same : (s n₀).regs.Same (s (n₀ + 1)).regs := by
        rw [h.regs_next le, next_waits (h.calm n₀ le) waits (.inr busy)]
        exact settle_same _ _
      have none : seen freq s i n₀ = [] := by
        rw [h.seen_same le (by rw [same]), silent]
        rfl
      refine ⟨n₀ + 1, [], left.symm, (Span.refl _ _ n₀).linger waits.busy none, gap ⟨?_, ?_⟩ same⟩
      · rw [next]
        exact idle
      · rw [next]
  · obtain ⟨m, under, length, span, r, done⟩ := h.runs.finish rfl le idle
    obtain ⟨span', received⟩ := h.underWay le waits quiet span done
    exact ⟨m + 1, under, length, span', gap received.free received.same⟩

/-- **The initialisation of a card.** Behind a pulse of `I_cmd_init`, whatever the card does: the
bits that are left of a byte under way, with the card not selected; then attempts, the first with
ten dummy bytes, of which at most sixteen are made, up to an answer to the last poll; and then
nothing more, with `sdcard` idle if there was an answer, and not initialised if none of the bytes
polled was one. -/
theorem session (freq : ℕ) (memory : State) (input : ℕ → In) (n : ℕ)
    (pulse : (input n).iRstN = true ∧ (input n).iCmdInit = true)
    (calm : ∀ k, n < k → (input k).Calm) :
    ∃ (m : ℕ) (under : List SpiMaster.Bit) (first : Attempt) (rest : List Attempt),
      (states freq memory input (n + 1)).regs.oCsN = true ∧
      Span (seen freq (states freq memory input) input) (Active (states freq memory input))
        (n + 1) m (under.map Event.bit ++ (first :: rest).flatMap Attempt.log) ∧
      under.length = (states freq memory input (n + 1)).spi.left ∧
      Session 16 10 first rest ∧
      ∀ k, m ≤ k → seen freq (states freq memory input) input k = [] ∧
        (states freq memory input k).oBusyWrite = false ∧
        ((states freq memory input k).regs.state = .idle ↔
          ((first :: rest).flatMap Attempt.polls).getLast? = some 1#8) ∧
        ((states freq memory input k).regs.state = .uninit ↔
          1#8 ∉ (first :: rest).flatMap Attempt.polls) ∧
        ((states freq memory input k).regs.state = .uninit →
          ((first :: rest).flatMap Attempt.polls).length = 16 * 10) := by
  have run : Calm freq (n + 1) (states freq memory input) input :=
    ⟨fun _ _ => rfl, calm, states_sound freq memory input (n + 1)⟩
  have init : (states freq memory input (n + 1)).regs = (states freq memory input n).regs.init := by
    change ((states freq memory input n).regs.next _ (input n)) = _
    unfold Regs.next
    rw [pulse.1, pulse.2]
    rfl
  obtain ⟨m₁, under, length, span₁, gap⟩ := run.begin init
  obtain ⟨m, l, answered, tries, span, stopped⟩ := run.tries span₁.le (x := 15) rfl gap
  obtain ⟨first, rest, rfl, session⟩ := tries.isSession
  refine ⟨m, under, first, rest, by rw [init]; rfl, span₁.trans span, length, session,
    fun k le => ?_⟩
  obtain ⟨stopped', silent⟩ := run.stopped (span₁.le.trans span.le) stopped le
  have polled := tries.polled
  have state := stopped'.state
  refine ⟨silent, ?_, ?_⟩
  · unfold State.oBusyWrite
    rw [state]
    cases answered <;> rfl
  rw [state]
  cases answered with
  | true =>
    have mem := List.mem_of_getLast? polled
    exact ⟨⟨fun _ => polled, fun _ => rfl⟩, ⟨nofun, fun none => absurd mem none⟩, nofun⟩
  | false =>
    exact ⟨⟨nofun, fun last => absurd (List.mem_of_getLast? last) polled.1⟩,
      ⟨fun _ => polled.1, fun _ => rfl⟩, fun _ => polled.2⟩

/-- A pulse in the first cycle, and a card that never answers. -/
def once (k : ℕ) : In := ⟨true, true, false, k == 0⟩

/-- Registers that are all zero. -/
def blank : State where
  regs := ⟨false, 0#32, false, false, false, 0#4, 0#8, .idle, .idle, 0#5, 0#48, 0#5, 0#5⟩
  spi := ⟨false, false, 0#8, false, false, 0#8, 0#8, 0#32, 0#32, .idle, 0#5⟩

theorem session_once : ∃ (m : ℕ) (first : Attempt) (rest : List Attempt),
    Session 16 10 first rest ∧ ∀ k, m ≤ k → (states 48000000 blank once k).oBusyWrite = false := by
  obtain ⟨m, _, first, rest, _, _, _, session, after⟩ :=
    session 48000000 blank once 0 ⟨rfl, rfl⟩ fun k later =>
      ⟨rfl, beq_false_of_ne (Nat.ne_of_gt later)⟩
  exact ⟨m, first, rest, session, fun k le => (after k le).2.1⟩

end Teres.Rtl.Sdcard
