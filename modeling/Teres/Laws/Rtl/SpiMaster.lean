import Teres.Base.Span
import Teres.Rtl.SpiMaster

/-!
# A byte over SPI

With `CPHA = 0` the master shifts at every leading edge and sets `O_mosi` at every trailing one. The
law goes backwards: from a state with `l` bits to come, those are the top bits of `buf_out`, and
what is received is shifted into `buf_in` (`Runs.rest`). A whole byte is the case of eight, from the
edge that takes the command on (`Runs.transfer`).

Commands during a transfer change nothing but `O_data_ready`, which is low then.
-/

namespace Teres.Rtl.SpiMaster

open Teres.Clocked

variable {p : Params}

/-! ## One clock edge -/

/-- A read drops `O_data_ready`. -/
def State.read (s : State) (i : In) : State := { s with oDataReady := s.oDataReady && !i.iCmdRead }

theorem next_eq {s : State} {i : In} (rst : i.iRstN = true) : next p s i =
    match s.state with
    | .idle => (s.read i).idle p i
    | .preStart => (s.read i).preStart
    | .start => (s.read i).start p i
    | .write => (s.read i).write p i := by
  have same : (if (s.oDataReady && i.iCmdRead) = true then { s with oDataReady := false } else s) =
      s.read i := by
    unfold State.read
    cases ready : s.oDataReady <;> cases i.iCmdRead <;> simp [← ready]
  unfold next
  rw [rst, same]
  rfl

/-- **What holds of a master since its reset**: it is busy unless it is idle, and the level of
`O_sck` goes with its step. -/
structure Sound (p : Params) (s : State) : Prop where
  busy : s.state ≠ .idle → s.oBusyWrite = true
  level : s.state ≠ .write → s.oSck = p.cpol0
  step : s.state = .write →
    1 ≤ s.step.toNat ∧ s.step.toNat ≤ 15 ∧ s.oSck = (p.cpol0 ^^ s.step.getLsbD 0)

theorem reset_sound (s : State) : Sound p (s.reset p) :=
  ⟨fun _ => rfl, fun _ => rfl, fun write => nomatch write⟩

theorem getLsbD_zero (step : BitVec 5) : step.getLsbD 0 = decide (step.toNat % 2 = 1) := by
  rw [BitVec.getLsbD, Nat.testBit_zero]

theorem step_succ {step : BitVec 5} (below : step.toNat < 31) :
    (step + 1#5).toNat = step.toNat + 1 := by
  rw [BitVec.toNat_add]
  exact Nat.mod_eq_of_lt (by change step.toNat + 1 < 32; omega)

theorem getLsbD_succ {step : BitVec 5} (below : step.toNat < 31) :
    (step + 1#5).getLsbD 0 = !step.getLsbD 0 := by
  rw [getLsbD_zero, getLsbD_zero, step_succ below, ← decide_not, decide_eq_decide]
  omega

section Write

variable (s : State) (i : In)

theorem write_state : (s.write p i).state =
    if s.counter = 0#32 ∧ s.step = 15#5 then .idle else s.state := by
  unfold State.write
  by_cases zero : s.counter = 0#32 <;> by_cases last : s.step = 15#5 <;> simp [zero, last]
  split_ifs <;> rfl

theorem write_oSck : (s.write p i).oSck = if s.counter = 0#32 then !s.oSck else s.oSck := by
  unfold State.write
  split_ifs <;> rfl

theorem write_step : (s.write p i).step =
    if s.counter = 0#32 then s.step + 1#5 else s.step := by
  unfold State.write
  split_ifs <;> rfl

theorem write_busy : (s.write p i).oBusyWrite = s.oBusyWrite := by
  unfold State.write
  split_ifs <;> rfl

variable {s i}

/-- The counter at zero, at an edge that sets `O_mosi`. -/
theorem write_set (zero : s.counter = 0#32) (phase : p.cpha0 ≠ s.step.getLsbD 0)
    (inner : s.step ≠ 15#5) : s.write p i =
      { s with
        counter := s.speedValue
        oSck := !s.oSck
        step := s.step + 1#5
        oMosi := s.bufOut.getLsbD 7 } := by
  unfold State.write
  rw [if_pos zero]
  simp only [if_neg phase, if_neg inner]

/-- The counter at zero, at an edge that shifts. -/
theorem write_shift (zero : s.counter = 0#32) (phase : p.cpha0 = s.step.getLsbD 0)
    (inner : s.step ≠ 15#5) : s.write p i =
      { s with
        counter := s.speedValue
        oSck := !s.oSck
        step := s.step + 1#5
        bufOut := shiftIn s.bufOut false
        bufIn := shiftIn s.bufIn i.iMiso } := by
  unfold State.write
  rw [if_pos zero]
  simp only [if_pos phase, if_neg inner]

/-- The counter at zero, at the last edge. -/
theorem write_last (zero : s.counter = 0#32) (last : s.step = 15#5) :
    (s.write p i).oDataReady = true ∧ (s.write p i).oDataIn = s.bufIn := by
  unfold State.write
  rw [if_pos zero]
  simp only [if_pos last, and_self]

end Write

theorem next_sound {s : State} (h : Sound p s) (i : In) : Sound p (next p s i) := by
  cases rst : i.iRstN with
  | false =>
    unfold next
    rw [rst]
    exact reset_sound s
  | true =>
    rw [next_eq rst]
    cases state : s.state with
    | idle =>
      simp only [State.idle]
      split_ifs
      · exact ⟨fun _ => rfl, fun _ => rfl, fun write => nomatch write⟩
      · exact ⟨fun _ => rfl, fun _ => rfl, fun write => nomatch write⟩
      · exact ⟨fun busy => absurd state busy, fun _ => rfl, fun write => nomatch state ▸ write⟩
    | preStart =>
      have busy := h.busy (state ▸ nofun)
      have level := h.level (state ▸ nofun)
      have stays : (s.read i).preStart.state ≠ .write := by
        simp only [State.preStart, State.read, state]
        split_ifs <;> exact nofun
      exact ⟨fun _ => busy, fun _ => level, fun write => absurd write stays⟩
    | start =>
      have busy := h.busy (state ▸ nofun)
      have first : 1 ≤ (1#5).toNat ∧ (1#5).toNat ≤ 15 ∧
          (!p.cpol0) = (p.cpol0 ^^ (1#5).getLsbD 0) :=
        ⟨by decide, by decide, (Bool.xor_true _).symm⟩
      simp only [State.start]
      split_ifs
      · exact ⟨fun _ => busy, fun write => absurd rfl write, fun _ => first⟩
      · exact ⟨fun _ => busy, fun write => absurd rfl write, fun _ => first⟩
    | write =>
      obtain ⟨low, high, level⟩ := h.step state
      have state' : ((s.read i).write p i).state =
          if s.counter = 0#32 ∧ s.step = 15#5 then .idle else .write :=
        (write_state _ i).trans (by rw [← state]; rfl)
      have oSck : ((s.read i).write p i).oSck = if s.counter = 0#32 then !s.oSck else s.oSck :=
        write_oSck _ i
      have step : ((s.read i).write p i).step =
          if s.counter = 0#32 then s.step + 1#5 else s.step := write_step _ i
      refine ⟨fun _ => (write_busy _ i).trans (h.busy (state ▸ nofun)), fun idle => ?_,
        fun write => ?_⟩
      · by_cases ended : s.counter = 0#32 ∧ s.step = 15#5
        · refine oSck.trans ?_
          rw [if_pos ended.1, level, ended.2]
          exact (congrArg (!·) (Bool.xor_true p.cpol0)).trans (Bool.not_not _)
        · exact absurd (state'.trans (if_neg ended)) idle
      · by_cases zero : s.counter = 0#32
        · have inner : s.step.toNat ≠ 15 := fun eq => by
            have ended := state'.trans (if_pos ⟨zero, BitVec.eq_of_toNat_eq eq⟩)
            exact nomatch write.symm.trans ended
          rw [if_pos zero] at oSck step
          have succ := @step_succ s.step (by omega)
          have turned := @getLsbD_succ s.step (by omega)
          rw [← step] at succ turned
          have next : 1 ≤ ((s.read i).write p i).step.toNat ∧
              ((s.read i).write p i).step.toNat ≤ 15 := by omega
          refine ⟨next.1, next.2, oSck.trans ?_⟩
          rw [level]
          exact (Bool.xor_not ..).symm.trans (congrArg (p.cpol0 ^^ ·) turned.symm)
        · rw [if_neg zero] at oSck step
          rw [← oSck, ← step] at level
          rw [← step] at low high
          exact ⟨low, high, level⟩

/-! ## Bits -/

/-- The first `l` bits of a byte, from the highest. -/
def top (l : ℕ) (w : BitVec 8) : List Bool := (List.range l).map w.getMsbD

theorem getLsbD_shiftIn (w : BitVec 8) (x : Bool) (k : ℕ) :
    (shiftIn w x).getLsbD k = if k = 0 then x else (decide (k < 8) && w.getLsbD (k - 1)) := by
  unfold shiftIn
  rw [BitVec.getLsbD_append, BitVec.getLsbD_extractLsb']
  rcases k with _ | k
  · simp
  · simp [show k + 1 < 8 ↔ k < 7 by omega]

theorem getMsbD_shiftIn (w : BitVec 8) (x : Bool) {k : ℕ} (below : k < 7) :
    (shiftIn w x).getMsbD k = w.getMsbD (k + 1) := by
  rw [BitVec.getMsbD, BitVec.getMsbD, getLsbD_shiftIn]
  have above : 8 - 1 - k ≠ 0 := by omega
  have place : 8 - 1 - k - 1 = 8 - 1 - (k + 1) := by omega
  rw [if_neg above, place]
  simp [show k < 8 by omega, show k + 1 < 8 by omega, show 8 - 1 - k < 8 by omega]

/-- The first bits of a byte and of the rest of it. -/
theorem top_succ (w : BitVec 8) (x : Bool) {l : ℕ} (below : l < 8) :
    top (l + 1) w = w.getMsbD 0 :: top l (shiftIn w x) := by
  unfold top
  rw [List.range_succ_eq_map, List.map_cons, List.map_map]
  refine congrArg (w.getMsbD 0 :: ·) (List.map_congr_left fun k mem => ?_)
  exact (getMsbD_shiftIn w x (by have := List.mem_range.1 mem; omega)).symm

/-- Bits shifted in stand in their order, the last one lowest. -/
theorem getLsbD_foldl (w : BitVec 8) (l : List Bool) : l.length ≤ 8 → ∀ k < l.length,
    l[k]? = some ((l.foldl shiftIn w).getLsbD (l.length - 1 - k)) := by
  induction l using List.reverseRecOn with
  | nil => exact fun _ k below => absurd below (Nat.not_lt_zero k)
  | append_singleton l x ih =>
    intro bound k below
    rw [List.length_append, List.length_singleton] at bound below
    rw [List.foldl_append, List.foldl_cons, List.foldl_nil, getLsbD_shiftIn, List.length_append,
      List.length_singleton, Nat.add_sub_cancel]
    rcases Nat.lt_or_eq_of_le (Nat.le_of_lt_succ below) with inner | rfl
    · have above : l.length - k ≠ 0 := by omega
      have place : l.length - k - 1 = l.length - 1 - k := by omega
      rw [if_neg above, place, List.getElem?_append_left inner, ih (by omega) k inner]
      simp [show l.length - k < 8 by omega]
    · rw [if_pos (Nat.sub_self _), List.getElem?_concat_length]

/-- **What eight bits shifted in make**, bit for bit. -/
theorem top_foldl {misos : List Bool} (length : misos.length = 8) (w : BitVec 8) :
    top 8 (misos.foldl shiftIn w) = misos := by
  unfold top
  refine List.ext_getElem (by rw [List.length_map, List.length_range, length]) fun k _ below => ?_
  have bit := getLsbD_foldl w misos (Nat.le_of_eq length) k below
  rw [length, List.getElem?_eq_getElem below] at bit
  rw [List.getElem_map, List.getElem_range, BitVec.getMsbD, Option.some.inj bit]
  simp [show k < 8 by omega]

/-- Bits out of a byte while others come in. -/
def exchange (l : ℕ) (w : BitVec 8) (misos : List Bool) : List Bit :=
  List.zipWith .mk (top l w) misos

theorem exchange_length {l : ℕ} (w : BitVec 8) {misos : List Bool} (length : misos.length = l) :
    (exchange l w misos).length = l := by
  unfold exchange top
  rw [List.length_zipWith, List.length_map, List.length_range, length, Nat.min_self]

/-- **A byte sent**, by what comes back. -/
theorem exchange_eight (b : BitVec 8) {misos : List Bool} (length : misos.length = 8) :
    exchange 8 b misos = sent b (misos.foldl shiftIn 0#8) := by
  unfold exchange
  nth_rewrite 1 [← top_foldl length 0#8]
  unfold top sent
  rw [List.zipWith_map, List.zipWith_self]

/-! ## Runs -/

/-- A run from edge `n₀` on without a reset. -/
structure Runs (p : Params) (n₀ : ℕ) (s : ℕ → State) (i : ℕ → In) : Prop where
  next : ∀ k, n₀ ≤ k → s (k + 1) = next p (s k) (i k)
  rst : ∀ k, n₀ ≤ k → (i k).iRstN = true
  sound : Sound p (s n₀)

/-- The bits on the wire, edge by edge. -/
def wire (p : Params) (s : ℕ → State) (i : ℕ → In) (k : ℕ) : List Bit := bits p (s k) (i k)

/-- The master is busy before edge `k`. -/
def Busy (s : ℕ → State) (k : ℕ) : Prop := (s k).oBusyWrite = true

/-- The edges of `O_sck`. -/
def sck (p : Params) (s : ℕ → State) (i : ℕ → In) (k : ℕ) : List Toggle := toggles p (s k) (i k)

/-- The bit of a leading edge. -/
def Toggle.bits (t : Toggle) : List Bit := if t.leading then [⟨t.mosi, t.miso⟩] else []

theorem toggles_level {s : State} {i : In} (same : (next p s i).oSck = s.oSck) :
    toggles p s i = [] := if_pos same

theorem toggles_edge {s : State} {i : In} (turns : (next p s i).oSck = !s.oSck) :
    toggles p s i = [⟨s.oSck = p.cpol0, s.oMosi, i.iMiso⟩] := by
  refine if_neg ?_
  rw [turns]
  cases s.oSck <;> exact nofun

/-- The bits are those of the edges. -/
theorem bits_toggles (s : State) (i : In) : bits p s i = (toggles p s i).flatMap Toggle.bits := by
  by_cases same : (next p s i).oSck = s.oSck
  · rw [toggles_level same]
    refine if_neg fun leading => leading.2 ?_
    rw [same, leading.1]
  · have turns : (next p s i).oSck = !s.oSck := Bool.eq_not.mpr same
    rw [toggles_edge turns, List.flatMap_singleton, Toggle.bits, bits]
    by_cases resting : s.oSck = p.cpol0
    · have active : (next p s i).oSck ≠ p.cpol0 := resting ▸ same
      rw [if_pos ⟨resting, active⟩, if_pos (decide_eq_true resting)]
    · have trailing : ¬decide (s.oSck = p.cpol0) = true := by
        rw [decide_eq_true_iff]
        exact resting
      rw [if_neg fun leading => resting leading.1, if_neg trailing]

/-- **What is on the wire in a span** are the bits of its leading edges. -/
theorem wired {s : ℕ → State} {i : ℕ → In} {P : ℕ → Prop} {n m : ℕ} {log : List Toggle}
    (span : Span (sck p s i) P n m log) : Span (wire p s i) P n m (log.flatMap Toggle.bits) :=
  span.image (fun _ _ => List.flatMap_append) (fun _ _ _ => bits_toggles _ _) span.during

/-- The edges of a log by their kinds, and the bits of those that lead. -/
structure Logged (log : List Toggle) (kinds : List Bool) (bits : List Bit) : Prop where
  kinds : log.map Toggle.leading = kinds
  bits : log.flatMap Toggle.bits = bits

theorem Logged.nil : Logged [] [] [] := ⟨rfl, rfl⟩

theorem Logged.leading {log : List Toggle} {kinds : List Bool} {bits : List Bit} {mosi miso : Bool}
    (h : Logged log kinds bits) :
    Logged (⟨true, mosi, miso⟩ :: log) (true :: kinds) (⟨mosi, miso⟩ :: bits) where
  kinds := congrArg (true :: ·) h.kinds
  bits := by
    rw [List.flatMap_cons, h.bits]
    rfl

theorem Logged.trailing {log : List Toggle} {kinds : List Bool} {bits : List Bit} {t : Toggle}
    (trails : t.leading = false) (h : Logged log kinds bits) :
    Logged (t :: log) (false :: kinds) bits where
  kinds := by rw [List.map_cons, trails, h.kinds]
  bits := by
    rw [List.flatMap_cons, h.bits, Toggle.bits, trails]
    rfl

/-- What a byte leaves, one cycle before the master is free. -/
structure Done (r : BitVec 8) (s : State) : Prop where
  state : s.state = .idle
  busy : s.oBusyWrite = true
  dataReady : s.oDataReady = true
  dataIn : s.oDataIn = r

namespace Runs

variable {n₀ n : ℕ} {s : ℕ → State} {i : ℕ → In}

theorem sound_at (h : Runs p n₀ s i) (le : n₀ ≤ n) : Sound p (s n) := by
  induction n, le using Nat.le_induction with
  | base => exact h.sound
  | succ n le ih => exact h.next n le ▸ next_sound ih (i n)

theorem write_next (h : Runs p n₀ s i) (le : n₀ ≤ n) (state : (s n).state = .write) :
    s (n + 1) = ((s n).read (i n)).write p (i n) := by
  rw [h.next n le, next_eq (h.rst n le), state]

/-- **A wait for the counter** has no edges. -/
theorem wait (h : Runs p n₀ s i) (le : n₀ ≤ n) (state : (s n).state = .write) :
    ∃ m, Span (sck p s i) (Busy s) n m [] ∧
      s m = { s n with counter := 0#32, oDataReady := (s m).oDataReady } := by
  induction counter : (s n).counter.toNat generalizing n with
  | zero =>
    have zero : (s n).counter = 0#32 := BitVec.eq_of_toNat_eq counter
    exact ⟨n, .refl _ _ n, by rw [← zero]⟩
  | succ c ih =>
    have more : (s n).counter ≠ 0#32 := fun zero => by
      rw [zero] at counter
      exact absurd counter.symm (Nat.succ_ne_zero c)
    have step : s (n + 1) =
        { (s n).read (i n) with counter := (s n).counter - 1#32 } :=
      (h.write_next le state).trans (if_neg more)
    have level : sck p s i n = [] := toggles_level (by rw [← h.next n le, step]; rfl)
    have busy : Busy s n := (h.sound_at le).busy (state ▸ nofun)
    have less : (s (n + 1)).counter.toNat = c := by
      have bound := (s n).counter.isLt
      rw [step]
      change ((s n).counter - 1#32).toNat = c
      rw [BitVec.toNat_sub_of_le (BitVec.le_def.2 (by rw [counter]; exact Nat.succ_pos c)), counter]
      rfl
    obtain ⟨m, span, eq⟩ := ih (Nat.le_succ_of_le le) (by rw [step]; exact state) less
    refine ⟨m, span.skip busy level, eq.trans ?_⟩
    rw [step]
    rfl

/-- Behind the wait `O_sck` turns, away from its idle level behind an even step. -/
theorem turn (h : Runs p n₀ s i) (le : n₀ ≤ n) (state : (s n).state = .write) :
    ∃ m, Busy s m ∧ Span (sck p s i) (Busy s) n m [] ∧
      s m = { s n with counter := 0#32, oDataReady := (s m).oDataReady } ∧
      s (m + 1) = ((s m).read (i m)).write p (i m) ∧
      (s (m + 1)).oSck = !(s m).oSck ∧
      decide ((s m).oSck = p.cpol0) = !(s n).step.getLsbD 0 := by
  obtain ⟨m, span, eq⟩ := h.wait le state
  have le' := le.trans span.le
  have sound := h.sound_at le'
  have state' : (s m).state = .write := by rw [eq]; exact state
  have busy : Busy s m := sound.busy (state' ▸ nofun)
  have next := h.write_next le' state'
  have zero : (s m).counter = 0#32 := by rw [eq]
  have turns : (s (m + 1)).oSck = !(s m).oSck := by
    rw [next, write_oSck]
    exact if_pos zero
  have leads : decide ((s m).oSck = p.cpol0) = !(s n).step.getLsbD 0 := by
    rw [(sound.step state').2.2, eq]
    cases p.cpol0 <;> cases (s n).step.getLsbD 0 <;> rfl
  exact ⟨m, busy, span, eq, next, turns, leads⟩

/-- That is an edge of the byte. -/
theorem edge (h : Runs p n₀ s i) (le : n₀ ≤ n) (state : (s n).state = .write) :
    ∃ m, Busy s m ∧
      Span (sck p s i) (Busy s) n (m + 1) [⟨!(s n).step.getLsbD 0, (s n).oMosi, (i m).iMiso⟩] ∧
      s m = { s n with counter := 0#32, oDataReady := (s m).oDataReady } ∧
      s (m + 1) = ((s m).read (i m)).write p (i m) := by
  obtain ⟨m, busy, span, eq, next, turns, leads⟩ := h.turn le state
  have toggle : sck p s i m = [⟨!(s n).step.getLsbD 0, (s n).oMosi, (i m).iMiso⟩] := by
    refine (toggles_edge (by rw [← h.next m (le.trans span.le), turns])).trans ?_
    rw [leads, eq]
  exact ⟨m, busy, toggle ▸ span.snoc busy, eq, next⟩

/-- **A trailing edge** puts the next bit on `O_mosi`. -/
theorem trailing (h : Runs p n₀ s i) (cpha : p.cpha = 0) (le : n₀ ≤ n)
    (state : (s n).state = .write) {l : ℕ} (step : (s n).step.toNat + 2 * (l + 1) = 15) :
    ∃ m t, t.leading = false ∧ Span (sck p s i) (Busy s) n m [t] ∧ (s m).state = .write ∧
      (s m).step.toNat + 2 * (l + 1) = 16 ∧ (s m).oMosi = (s n).bufOut.getMsbD 0 ∧
      (s m).bufOut = (s n).bufOut ∧ (s m).bufIn = (s n).bufIn := by
  obtain ⟨m, _, span, eq, next⟩ := h.edge le state
  have odd : (s n).step.getLsbD 0 = true := by
    rw [getLsbD_zero, decide_eq_true_iff]
    omega
  have phase : p.cpha0 ≠ (s n).step.getLsbD 0 := by
    rw [odd, Params.cpha0, cpha]
    exact nofun
  have inner : (s n).step ≠ 15#5 := fun last => by
    rw [last] at step
    exact absurd step (by change 15 + 2 * (l + 1) ≠ 15; omega)
  rw [write_set (by rw [eq]; rfl) (by rw [eq]; exact phase) (by rw [eq]; exact inner), eq] at next
  refine ⟨m + 1, _, by rw [odd]; rfl, span, ?_⟩
  rw [next]
  refine ⟨state, ?_, rfl, rfl, rfl⟩
  change ((s n).step + 1#5).toNat + _ = _
  rw [step_succ (by omega)]
  omega

/-- **A leading edge** is a bit on the wire. -/
theorem leading (h : Runs p n₀ s i) (cpha : p.cpha = 0) (le : n₀ ≤ n)
    (state : (s n).state = .write) {l : ℕ} (step : (s n).step.toNat + 2 * (l + 1) = 16) :
    ∃ m miso, Span (sck p s i) (Busy s) n m [⟨true, (s n).oMosi, miso⟩] ∧ (s m).state = .write ∧
      (s m).step.toNat + 2 * l = 15 ∧ (s m).bufOut = shiftIn (s n).bufOut false ∧
      (s m).bufIn = shiftIn (s n).bufIn miso := by
  obtain ⟨m, _, span, eq, next⟩ := h.edge le state
  have even : (s n).step.getLsbD 0 = false := by
    rw [getLsbD_zero, decide_eq_false_iff_not]
    omega
  have phase : p.cpha0 = (s n).step.getLsbD 0 := by
    rw [even, Params.cpha0, cpha]
    rfl
  have inner : (s n).step ≠ 15#5 := fun last => by
    rw [last] at even
    cases even
  rw [write_shift (by rw [eq]; rfl) (by rw [eq]; exact phase) (by rw [eq]; exact inner)] at next
  rw [even, Bool.not_false] at span
  refine ⟨m + 1, (i m).iMiso, span, ?_⟩
  rw [next, eq]
  refine ⟨state, ?_, rfl, rfl⟩
  change ((s n).step + 1#5).toNat + _ = _
  rw [step_succ (by omega)]
  omega

/-- **The last trailing edge** gives the byte that came in. -/
theorem last (h : Runs p n₀ s i) (le : n₀ ≤ n) (state : (s n).state = .write)
    (step : (s n).step.toNat = 15) :
    ∃ m t, t.leading = false ∧ Span (sck p s i) (Busy s) n m [t] ∧ Done (s n).bufIn (s m) := by
  obtain ⟨m, busy, span, eq, next⟩ := h.edge le state
  have ended : (s n).step = 15#5 := BitVec.eq_of_toNat_eq step
  have zero : ((s m).read (i m)).counter = 0#32 := by rw [eq]; rfl
  have fifteen : ((s m).read (i m)).step = 15#5 := by rw [eq]; exact ended
  obtain ⟨ready, dataIn⟩ := write_last (p := p) (i := i m) zero fifteen
  refine ⟨m + 1, _, by rw [ended]; rfl, span, ?_⟩
  rw [next]
  exact ⟨(write_state _ _).trans (if_pos ⟨zero, fifteen⟩), (write_busy _ _).trans busy, ready,
    dataIn.trans (by rw [eq]; rfl)⟩

/-- **The rest of a byte**, from a trailing edge on: the top bits of `buf_out` go out. -/
theorem rest (h : Runs p n₀ s i) (cpha : p.cpha = 0) (le : n₀ ≤ n)
    (state : (s n).state = .write) {l : ℕ} (step : (s n).step.toNat + 2 * l = 15) :
    ∃ m misos log, misos.length = l ∧ Span (sck p s i) (Busy s) n m log ∧
      Logged log ((List.replicate l [false, true]).flatten ++ [false])
        (exchange l (s n).bufOut misos) ∧
      Done (misos.foldl shiftIn (s n).bufIn) (s m) := by
  induction l generalizing n with
  | zero =>
    obtain ⟨m, t, trails, span, done⟩ := h.last le state step
    exact ⟨m, [], [t], rfl, span, .trailing trails .nil, done⟩
  | succ l ih =>
    obtain ⟨m₁, t, trails, span₁, state₁, step₁, mosi, out₁, in₁⟩ := h.trailing cpha le state step
    have le₁ := le.trans span₁.le
    obtain ⟨m₂, miso, span₂, state₂, step₂, out₂, in₂⟩ := h.leading cpha le₁ state₁ step₁
    obtain ⟨m, misos, log, length, span, logged, done⟩ := ih (le₁.trans span₂.le) state₂ step₂
    refine ⟨m, miso :: misos, t :: ⟨true, (s m₁).oMosi, miso⟩ :: log, congrArg (· + 1) length,
      (span₁.trans span₂).trans span, ?_, ?_⟩
    · rw [out₂, out₁] at logged
      unfold exchange
      rw [top_succ _ false (by omega), ← mosi]
      exact .trailing trails (.leading logged)
    · rw [in₂, in₁] at done
      exact done

/-- **The first leading edge**, with the bit that stands on `O_mosi` already. -/
theorem first (h : Runs p n₀ s i) (cpha : p.cpha = 0) (le : n₀ ≤ n)
    (state : (s n).state = .start) :
    ∃ m miso misos log, misos.length = 7 ∧ Span (sck p s i) (Busy s) n m log ∧
      Logged log (List.replicate 8 [true, false]).flatten
        (⟨(s n).oMosi, miso⟩ ::
          exchange 7 (shiftIn (s n).bufOut ((s n).bufOut.getLsbD 0)) misos) ∧
      Done ((miso :: misos).foldl shiftIn (s n).bufIn) (s m) := by
  have sound := h.sound_at le
  have resting := sound.level (state ▸ nofun)
  have next : s (n + 1) = ((s n).read (i n)).start p (i n) := by
    rw [h.next n le, next_eq (h.rst n le), state]
  unfold State.start at next
  rw [if_pos cpha] at next
  have toggle : sck p s i n = [⟨true, (s n).oMosi, (i n).iMiso⟩] := by
    refine (toggles_edge ?_).trans (by rw [decide_eq_true resting])
    rw [← h.next n le, next, resting]
  obtain ⟨m, misos, log, length, span, logged, done⟩ :=
    h.rest cpha (Nat.le_succ_of_le le) (l := 7) (by rw [next]) (by rw [next]; rfl)
  have joined := span.cons (sound.busy (state ▸ nofun))
  rw [toggle] at joined
  rw [next] at logged done
  exact ⟨m, (i n).iMiso, misos, _, length, joined, .leading logged, done⟩

/-- **The wait before the first edge** has no edges. -/
theorem preStart (h : Runs p n₀ s i) (le : n₀ ≤ n) (state : (s n).state = .preStart) :
    ∃ m, Span (sck p s i) (Busy s) n m [] ∧ s m =
      { s n with state := .start, counter := (s m).counter, oDataReady := (s m).oDataReady } := by
  have next : s (n + 1) = ((s n).read (i n)).preStart := by
    rw [h.next n le, next_eq (h.rst n le), state]
  have quiet : sck p s i n = [] := toggles_level (by rw [← h.next n le, next]; rfl)
  have busy : Busy s n := (h.sound_at le).busy (state ▸ nofun)
  induction counter : (s n).counter.toNat generalizing n with
  | zero =>
    have zero : ((s n).read (i n)).counter = 0#32 := BitVec.eq_of_toNat_eq counter
    unfold State.preStart at next
    rw [if_pos zero] at next
    exact ⟨n + 1, (Span.refl _ _ n).linger busy quiet, by rw [next]; rfl⟩
  | succ c ih =>
    have more : ((s n).read (i n)).counter ≠ 0#32 := fun zero => by
      change (s n).counter = 0#32 at zero
      rw [zero] at counter
      exact absurd counter.symm (Nat.succ_ne_zero c)
    unfold State.preStart at next
    rw [if_neg more] at next
    have le' := Nat.le_succ_of_le le
    have state' : (s (n + 1)).state = .preStart := by rw [next]; exact state
    have less : (s (n + 1)).counter.toNat = c := by
      rw [next]
      change ((s n).counter - 1#32).toNat = c
      rw [BitVec.toNat_sub_of_le (BitVec.le_def.2 (by rw [counter]; exact Nat.succ_pos c)), counter]
      rfl
    have next' : s (n + 1 + 1) = ((s (n + 1)).read (i (n + 1))).preStart := by
      rw [h.next _ le', next_eq (h.rst _ le'), state']
    obtain ⟨m, span, eq⟩ := ih le' state' next' (toggles_level (by rw [← h.next _ le', next']; rfl))
      ((h.sound_at le').busy (state' ▸ nofun)) less
    refine ⟨m, span.skip busy quiet, eq.trans ?_⟩
    rw [next]
    rfl

/-- **A command taken** by a free master makes the sixteen edges of its byte, whatever comes in
meanwhile. -/
theorem taken (h : Runs p n₀ s i) (cpha : p.cpha = 0) (le : n₀ ≤ n)
    (state : (s n).state = .idle) (free : (s n).oBusyWrite = false)
    (command : (i n).iCmdWrite = true) :
    sck p s i n = [] ∧ (s (n + 1)).state = .preStart ∧ (s (n + 1)).oDataReady = false ∧
      ∃ m r log, Span (sck p s i) (Busy s) (n + 1) m log ∧
        Logged log (List.replicate 8 [true, false]).flatten (sent (i n).iDataOut r) ∧
        Done r (s m) := by
  have le' := Nat.le_succ_of_le le
  have next : s (n + 1) = ((s n).read (i n)).idle p (i n) := by
    rw [h.next n le, next_eq (h.rst n le), state]
  have write : ((i n).iCmdWrite && !((s n).read (i n)).oBusyWrite) = true := by
    change ((i n).iCmdWrite && !(s n).oBusyWrite) = true
    rw [command, free]
    rfl
  unfold State.idle at next
  rw [if_pos write, if_pos cpha] at next
  have resting := (h.sound_at le).level (state ▸ nofun)
  refine ⟨toggles_level ?_, by rw [next], by rw [next], ?_⟩
  · rw [← h.next n le, next, resting]
  obtain ⟨m₁, span₁, eq⟩ := h.preStart le' (by rw [next])
  obtain ⟨m, miso, misos, log, length, span, logged, done⟩ :=
    h.first cpha (le'.trans span₁.le) (by rw [eq])
  have eight : (miso :: misos).length = 8 := congrArg (· + 1) length
  refine ⟨m, (miso :: misos).foldl shiftIn 0#8, log, span₁.trans span, ?_, ?_⟩
  · rw [eq, next] at logged
    rw [← exchange_eight _ eight]
    unfold exchange
    rw [top_succ _ ((i n).iDataOut.getLsbD 0) (by decide)]
    exact logged
  · rw [eq, next] at done
    exact done

/-- So it sends its byte. -/
theorem transfer (h : Runs p n₀ s i) (cpha : p.cpha = 0) (le : n₀ ≤ n)
    (state : (s n).state = .idle) (free : (s n).oBusyWrite = false)
    (command : (i n).iCmdWrite = true) :
    wire p s i n = [] ∧ ∃ m r, Span (wire p s i) (Busy s) (n + 1) m (sent (i n).iDataOut r) ∧
      Done r (s m) := by
  obtain ⟨still, _, _, m, r, log, span, logged, done⟩ := h.taken cpha le state free command
  refine ⟨?_, m, r, logged.bits ▸ wired span, done⟩
  have bits : wire p s i n = (sck p s i n).flatMap Toggle.bits := bits_toggles _ _
  rw [bits, still, List.flatMap_nil]

/-- **One cycle after a byte** the master is free, and the byte is there unless it is read. -/
theorem free (h : Runs p n₀ s i) (le : n₀ ≤ n) (state : (s n).state = .idle)
    (quiet : (s n).oBusyWrite = true ∨ (i n).iCmdWrite = false) :
    sck p s i n = [] ∧ wire p s i n = [] ∧ s (n + 1) =
      { (s n).read (i n) with oSck := p.cpol0, oBusyWrite := false } := by
  have write : ¬((i n).iCmdWrite && !((s n).read (i n)).oBusyWrite) = true := by
    change ¬((i n).iCmdWrite && !(s n).oBusyWrite) = true
    rcases quiet with busy | none
    · rw [busy, Bool.not_true, Bool.and_false]
      exact nofun
    · rw [none]
      exact nofun
  have next : s (n + 1) = { (s n).read (i n) with oSck := p.cpol0, oBusyWrite := false } := by
    rw [h.next n le, next_eq (h.rst n le), state]
    exact if_neg write
  have still : sck p s i n = [] := by
    refine toggles_level ?_
    rw [← h.next n le, next, (h.sound_at le).level (state ▸ nofun)]
  have bits : wire p s i n = (sck p s i n).flatMap Toggle.bits := bits_toggles _ _
  refine ⟨still, ?_, next⟩
  rw [bits, still, List.flatMap_nil]

end Runs

/-- The bits that a transfer under way is still to put on the wire. -/
def State.left (s : State) : ℕ :=
  match s.state with
  | .idle => 0
  | .preStart | .start => 8
  | .write => (16 - s.step.toNat) / 2

/-- **A transfer under way** ends, after the bits that it has left. -/
theorem Runs.finish {n₀ n : ℕ} {s : ℕ → State} {i : ℕ → In} (h : Runs p n₀ s i) (cpha : p.cpha = 0)
    (le : n₀ ≤ n) (under : (s n).state ≠ .idle) :
    ∃ m log, log.length = (s n).left ∧ Span (wire p s i) (Busy s) n m log ∧ ∃ r, Done r (s m) := by
  have whole {n : ℕ} (le : n₀ ≤ n) (state : (s n).state = .start) :
      ∃ m log, log.length = 8 ∧ Span (wire p s i) (Busy s) n m log ∧ ∃ r, Done r (s m) := by
    obtain ⟨m, miso, misos, log, length, span, logged, done⟩ := h.first cpha le state
    have bits := wired span
    rw [logged.bits] at bits
    exact ⟨m, _, congrArg (· + 1) (exchange_length _ length), bits, _, done⟩
  unfold State.left
  cases state : (s n).state with
  | idle => exact absurd state under
  | start => exact whole le state
  | preStart =>
    obtain ⟨m₁, span₁, eq⟩ := h.preStart le state
    obtain ⟨m, log, length, span, done⟩ := whole (le.trans span₁.le) (by rw [eq])
    exact ⟨m, log, length, (wired span₁).trans span, done⟩
  | write =>
    obtain ⟨low, high, -⟩ := (h.sound_at le).step state
    dsimp only
    rcases Nat.mod_two_eq_zero_or_one (s n).step.toNat with even | odd
    · obtain ⟨l, step⟩ : ∃ l, (s n).step.toNat + 2 * (l + 1) = 16 :=
        ⟨7 - (s n).step.toNat / 2, by omega⟩
      obtain ⟨m₁, miso, span₁, state₁, step₁, -, -⟩ := h.leading cpha le state step
      obtain ⟨m, misos, log, length, span, logged, done⟩ :=
        h.rest cpha (le.trans span₁.le) state₁ step₁
      have bits := wired span
      rw [logged.bits] at bits
      refine ⟨m, _, ?_, (wired span₁).trans bits, _, done⟩
      rw [List.length_append, exchange_length _ length]
      change 1 + l = _
      omega
    · obtain ⟨l, step⟩ : ∃ l, (s n).step.toNat + 2 * l = 15 :=
        ⟨7 - (s n).step.toNat / 2, by omega⟩
      obtain ⟨m, misos, log, length, span, logged, done⟩ := h.rest cpha le state step
      have bits := wired span
      rw [logged.bits] at bits
      refine ⟨m, _, ?_, bits, _, done⟩
      rw [exchange_length _ length]
      omega

/-! ## A byte from command to data -/

/-- While a transfer is under way, `O_data_ready` is low, and the end of it raises it. -/
theorem next_waits {s : State} {i : In} (rst : i.iRstN = true) (under : s.state ≠ .idle)
    (low : s.oDataReady = false) :
    (next p s i).oDataReady = decide ((next p s i).state = .idle) := by
  have read : (s.read i).oDataReady = false := by
    change (s.oDataReady && !i.iCmdRead) = false
    rw [low, Bool.false_and]
  rw [next_eq rst]
  cases state : s.state with
  | idle => exact absurd state under
  | preStart =>
    have stays : (s.read i).preStart.state ≠ .idle := by
      simp only [State.preStart, State.read, state]
      split_ifs <;> exact nofun
    rw [decide_eq_false stays]
    exact read
  | start =>
    simp only [State.start]
    split_ifs
    · exact read
    · exact read
  | write =>
    have state' : (s.read i).state = .write := state
    rw [write_state, state']
    unfold State.write
    split_ifs <;> simp_all

/-- **What becomes of a byte** `b` whose command is taken at edge `n`: up to edge `m` the master is
busy, sends it over eight leading and eight trailing edges of `O_sck`, and then has the byte `r`. -/
structure Transfer (p : Params) (s : ℕ → State) (i : ℕ → In) (n m : ℕ) (b r : BitVec 8) : Prop where
  later : n < m
  busy : ∀ k, n < k → k ≤ m → (s k).oBusyWrite = true
  edges : ∃ log, ledger (sck p s i) m = ledger (sck p s i) n ++ log ∧
    log.map Toggle.leading = (List.replicate 8 [true, false]).flatten ∧
    log.flatMap Toggle.bits = sent b r
  level : (s m).oSck = p.cpol0
  waits : ∀ k, n < k → k < m → (s k).oDataReady = false
  ready : (s m).oDataReady = true
  dataIn : (s m).oDataIn = r

section Command

variable {n₀ n : ℕ} {s : ℕ → State} {i : ℕ → In}

/-- The end of a byte is the first time that the master is idle again. -/
theorem Runs.under (h : Runs p n₀ s i) (le : n₀ ≤ n) {m : ℕ}
    (busy : ∀ k, n ≤ k → k ≤ m → (s k).oBusyWrite = true) {k : ℕ} (above : n ≤ k) (below : k < m) :
    (s k).state ≠ .idle := by
  intro idle
  obtain ⟨_, _, next⟩ := h.free (le.trans above) idle (.inl (busy k above below.le))
  have again := busy (k + 1) (Nat.le_succ_of_le above) below
  rw [next] at again
  cases again

/-- `O_data_ready` stays low up to there. -/
theorem Runs.waits (h : Runs p n₀ s i) (le : n₀ ≤ n) (low : (s n).oDataReady = false) {m : ℕ}
    (busy : ∀ k, n ≤ k → k ≤ m → (s k).oBusyWrite = true) :
    ∀ k, n ≤ k → k < m → (s k).oDataReady = false := by
  intro k above
  induction k, above using Nat.le_induction with
  | base => exact fun _ => low
  | succ k above ih =>
    intro below
    have under := h.under le busy above (Nat.lt_of_succ_lt below)
    have next := next_waits (p := p) (h.rst k (le.trans above)) under (ih (Nat.lt_of_succ_lt below))
    rw [← h.next k (le.trans above)] at next
    rw [next]
    exact decide_eq_false (h.under le busy (Nat.le_succ_of_le above) below)

/-- **A command in a cycle in which the master is free is taken**, and its byte transferred. -/
theorem Runs.command (h : Runs p n₀ s i) (cpha : p.cpha = 0) (le : n₀ ≤ n)
    (free : (s n).oBusyWrite = false) (command : (i n).iCmdWrite = true) :
    ∃ m r, Transfer p s i n m (i n).iDataOut r ∧ (s m).state = .idle := by
  have state : (s n).state = .idle := by
    by_contra under
    rw [(h.sound_at le).busy under] at free
    cases free
  have le' := Nat.le_succ_of_le le
  obtain ⟨still, _, low, m, r, log, span, logged, done⟩ := h.taken cpha le state free command
  have busy : ∀ k, n + 1 ≤ k → k ≤ m → (s k).oBusyWrite = true := by
    intro k above below
    rcases Nat.lt_or_eq_of_le below with inner | rfl
    · exact span.during k above inner
    · exact done.busy
  refine ⟨m, r, ⟨span.le, busy, ⟨log, ?_, logged.kinds, logged.bits⟩, ?_, h.waits le' low busy,
    done.dataReady, done.dataIn⟩, done.state⟩
  · rw [span.seen, ledger_succ, still, List.append_nil]
  · exact (h.sound_at (le'.trans span.le)).level (done.state ▸ nofun)

/-- No command is taken from edge `n` up to edge `k`. -/
def Unasked (s : ℕ → State) (i : ℕ → In) (n k : ℕ) : Prop :=
  ∀ j, n ≤ j → j < k → (s j).oBusyWrite = true ∨ (i j).iCmdWrite = false

/-- **Until the next command** the byte stays, and `O_data_ready` rises no more. -/
theorem Runs.rests (h : Runs p n₀ s i) (le : n₀ ≤ n) (state : (s n).state = .idle) : ∀ k, n ≤ k →
    Unasked s i n k → (s k).state = .idle ∧ (s k).oDataIn = (s n).oDataIn ∧
      ledger (sck p s i) k = ledger (sck p s i) n ∧
      ((s k).oDataReady = true → ∀ j, n ≤ j → j ≤ k → (s j).oDataReady = true) := by
  intro k above
  induction k, above using Nat.le_induction with
  | base =>
    refine fun _ => ⟨state, rfl, rfl, fun ready j above below => ?_⟩
    rw [Nat.le_antisymm below above]
    exact ready
  | succ k above ih =>
    intro unasked
    obtain ⟨idle, dataIn, edges, ready⟩ :=
      ih fun j above below => unasked j above (Nat.lt_succ_of_lt below)
    obtain ⟨still, _, next⟩ := h.free (le.trans above) idle (unasked k above (Nat.lt_succ_self k))
    refine ⟨by rw [next]; exact idle, by rw [next]; exact dataIn, ?_, fun now j above' below => ?_⟩
    · rw [ledger_succ, still, List.append_nil, edges]
    · have before : (s k).oDataReady = true := by
        have both := now
        rw [next] at both
        exact (Bool.and_eq_true_iff.mp both).1
      rcases Nat.lt_or_eq_of_le below with inner | rfl
      · exact ready before j above' (Nat.le_of_lt_succ inner)
      · exact now

end Command

/-- A run since a reset. -/
theorem states_runs {s : State} {input : ℕ → In} {r n : ℕ} (later : r < n)
    (reset : (input r).iRstN = false) (goes : ∀ k, n ≤ k → (input k).iRstN = true) :
    Runs p n (states p s input) input where
  next _ _ := rfl
  rst := goes
  sound := by
    obtain ⟨k, rfl⟩ := Nat.exists_eq_add_of_lt later
    clear goes later
    induction k with
    | zero =>
      change Sound p (SpiMaster.next p (states p s input r) (input r))
      unfold SpiMaster.next
      rw [reset]
      exact reset_sound _
    | succ k ih => exact next_sound ih _

/-- **A byte with `CPHA = 0`.** After a reset, a command in a cycle with `O_busy_write` low is
taken, whatever comes in meanwhile, and until the next one `O_data_ready` rises but once. -/
theorem transfers {p : Params} (cpha : p.cpha = 0) (s : State) (input : ℕ → In) {r n : ℕ}
    (later : r < n) (reset : (input r).iRstN = false)
    (goes : ∀ k, n ≤ k → (input k).iRstN = true)
    (free : (states p s input n).oBusyWrite = false) (command : (input n).iCmdWrite = true) :
    ∃ m b, Transfer p (states p s input) input n m (input n).iDataOut b ∧
      ∀ k, m ≤ k → Unasked (states p s input) input m k →
        (states p s input k).oDataIn = b ∧
        ledger (sck p (states p s input) input) k = ledger (sck p (states p s input) input) m ∧
        ((states p s input k).oDataReady = true →
          ∀ j, m ≤ j → j ≤ k → (states p s input j).oDataReady = true) := by
  have h : Runs p n (states p s input) input := states_runs later reset goes
  obtain ⟨m, b, transfer, idle⟩ := h.command cpha (Nat.le_refl n) free command
  refine ⟨m, b, transfer, fun k above unasked => ?_⟩
  obtain ⟨_, dataIn, edges, ready⟩ := h.rests transfer.later.le idle k above unasked
  exact ⟨dataIn.trans transfer.dataIn, edges, ready⟩

/-- A reset, and a command in every cycle behind it. -/
def commands (n : ℕ) : In := ⟨n ≠ 0, true, false, true, 0#4, 0xA5#8⟩

/-- The first of them is taken two cycles behind the reset. -/
theorem transfers_command : ∃ m b, Transfer ⟨48000000, 0, 1⟩
    (states ⟨48000000, 0, 1⟩ ⟨true, true, 0#8, false, false, 0#8, 0#8, 0#32, 0#32, .idle, 0#5⟩
      commands) commands 2 m 0xA5#8 b := by
  obtain ⟨m, b, transfer, _⟩ := transfers (p := ⟨48000000, 0, 1⟩) rfl
    ⟨true, true, 0#8, false, false, 0#8, 0#8, 0#32, 0#32, .idle, 0#5⟩ commands (r := 0) (n := 2)
    (by decide) rfl
    (fun k le => decide_eq_true (by omega)) (by decide) rfl
  exact ⟨m, b, transfer⟩

end Teres.Rtl.SpiMaster
