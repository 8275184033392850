import Teres.Laws.Kbd.KeyboardReport

/-!
# The guard and the lock of the touchpad

Reports and interrupts come in any order. The guard is on just when the timer has overflowed fewer
than nineteen times since keys were typed (`tpGuard_iff`), and the touchpad is locked just when the
lock key has been used an odd number of times (`Guarded`). Reports of the pointer come from
both interrupts, and one of these passes by the guard at the end of a touch; still, the pointer only
moves where an interrupt has asked for it with neither the guard nor the lock on. It moves by the
last packet of the run, which need not be one that this interrupt received (`moved_received`).
-/

namespace Teres.Kbd.KeyboardMouse

variable {lufa : Lufa} {past : List (State × Event)} {s : State}

/-! ## What the events say -/

/-- What happens from a state on. -/
def happens (lufa : Lufa) : State → List Event → List (State × Event)
  | _, [] => []
  | s, e :: events => (s, e) :: happens lufa (s.next lufa e) events

theorem Run.happens (run : Run lufa past s) (events : List Event) :
    Run lufa (past ++ happens lufa s events) (events.foldl (State.next lufa) s) := by
  induction events generalizing past s with
  | nil => exact (List.append_nil past).symm ▸ run
  | cons e events ih =>
    have rest : Run lufa ((past ++ [(s, e)]) ++ _) _ := ih (run.concat e)
    rw [List.append_assoc] at rest
    exact rest

/-- A report of keys without a modifier. -/
def Event.typed (lufa : Lufa) : Event → Bool
  | .keyboard pins => modifiers lufa pins == 0 && codes lufa pins != []
  | _ => false

/-- A scan with the lock key down. -/
def Event.locks : Event → Bool
  | .keyboard pins => pins.pd4 6 && pins.down 1 3
  | _ => false

/-- An interrupt of the timer. -/
def Event.isOverflow : Event → Bool
  | .overflow _ => true
  | _ => false

/-- How many times the timer has overflowed since keys were typed. -/
def sinceTyped (lufa : Lufa) (past : List (State × Event)) : Option ℕ :=
  past.foldl (fun n p => if p.2.typed lufa then some 0
    else if p.2.isOverflow then n.map (· + 1) else n) none

/-- Whether the lock key was used an odd number of times. -/
def locked (past : List (State × Event)) : Bool :=
  past.foldl (fun b p => b ^^ p.2.locks) false

@[simp] theorem sinceTyped_concat (p : State × Event) :
    sinceTyped lufa (past ++ [p]) = if p.2.typed lufa then some 0
      else if p.2.isOverflow then (sinceTyped lufa past).map (· + 1) else sinceTyped lufa past := by
  rw [sinceTyped, List.foldl_append]
  rfl

@[simp] theorem locked_concat (p : State × Event) :
    locked (past ++ [p]) = (locked past ^^ p.2.locks) := by
  rw [locked, List.foldl_append]
  rfl

/-! ## What the events change -/

/-- The state when the lock key is down or not. -/
def State.relock (s : State) (e : Event) : State :=
  { s with touchPadLocked := s.touchPadLocked ^^ e.locks }

/-- The report of the keys, by what is down. -/
theorem keyboard_eq (foreign : ∀ sc, lufa.sc sc ≠ lockTouchpad) (pins : Pins) :
    s.keyboard lufa pins = if (Event.keyboard pins).typed lufa then
      (s.relock (.keyboard pins)).tpGuarder else s.relock (.keyboard pins) := by
  unfold State.keyboard
  rw [report_met lufa pins foreign]
  refine if_congr ?_ rfl rfl
  rw [Event.typed, Bool.and_eq_true, beq_iff_eq, bne_iff_ne]
  refine and_congr_right fun _ => ?_
  rw [← List.length_pos_iff]
  change min (codes lufa pins).length 5 ≠ 0 ↔ _
  omega

/-- A report without a packet. -/
theorem createMouseReport_idle (idle : s.actionSend = false) : s.createMouseReport =
    ({ s with mrB := 0 }, ⟨s.mrB ||| s.mouse, 0, 0, 0⟩) := by
  rw [State.createMouseReport, if_neg (Bool.eq_false_iff.1 idle)]
  rfl

/-- A report of a packet. -/
theorem createMouseReport_sent (sent : s.actionSend = true) : s.createMouseReport =
    ({ s.fingers.1 with lastfingers := s.tpdata 2, actionSend := false, mrB := 0 },
      ⟨s.mrB ||| s.mouse, s.fingers.2.mrX.setWidth 8, s.fingers.2.mrY.setWidth 8,
        s.fingers.2.mrW⟩) := by
  rw [State.createMouseReport, if_pos sent]

/-- The ways of a packet. -/
theorem fingers_cases (s : State) :
    (s.tpdata 2 = 0 ∧ s.fingers = (s.noFinger, ⟨0, 0, 0⟩)) ∨
    (s.tpdata 2 = 1 ∧ s.fingers = s.oneFinger) ∨
    (s.tpdata 2 = 2 ∧ s.fingers = s.twoFingers) ∨
    (s.tpdata 2 ≠ 0 ∧ s.tpdata 2 ≠ 1 ∧ s.tpdata 2 ≠ 2 ∧
      s.fingers = ({ s with lastposX := 0, lastposY := 0 }, ⟨0, 0, 0⟩)) := by
  unfold State.fingers
  by_cases zero : s.tpdata 2 = 0
  · exact .inl ⟨zero, if_pos zero⟩
  · rw [if_neg zero]
    by_cases one : s.tpdata 2 = 1
    · exact .inr (.inl ⟨one, if_pos one⟩)
    · rw [if_neg one]
      by_cases two : s.tpdata 2 = 2
      · exact .inr (.inr (.inl ⟨two, if_pos two⟩))
      · exact .inr (.inr (.inr ⟨zero, one, two, if_neg two⟩))

/-- A report of the pointer leaves the guard and the lock. -/
theorem createMouseReport_guard : s.createMouseReport.1.tpGuard = s.tpGuard ∧
    s.createMouseReport.1.tpguard = s.tpguard ∧
    s.createMouseReport.1.touchPadLocked = s.touchPadLocked ∧
    s.createMouseReport.1.actionSend = false := by
  cases sent : s.actionSend with
  | false =>
    rw [createMouseReport_idle sent]
    exact ⟨rfl, rfl, rfl, sent⟩
  | true =>
    rw [createMouseReport_sent sent]
    obtain ⟨-, way⟩ | ⟨-, way⟩ | ⟨-, way⟩ | ⟨-, -, -, way⟩ := fingers_cases s <;>
      rw [way] <;> exact ⟨rfl, rfl, rfl, rfl⟩

/-! ## The guard -/

/-- What the guard and the lock have to do with what has happened. -/
structure Guarded (lufa : Lufa) (past : List (State × Event)) (s : State) : Prop where
  tpguard : s.tpguard = ((sinceTyped lufa past).map (tpLock - ·)).getD 0
  tpGuard : s.tpGuard = true ↔ 2 ≤ s.tpguard
  touchPadLocked : s.touchPadLocked = locked past

/-- An event that types nothing, is no overflow and does not lock. -/
theorem Guarded.other (h : Guarded lufa past s) {s' : State} {e : Event}
    (quiet : e.typed lufa = false ∧ e.isOverflow = false ∧ e.locks = false)
    (same : s'.tpGuard = s.tpGuard ∧ s'.tpguard = s.tpguard ∧
      s'.touchPadLocked = s.touchPadLocked) :
    Guarded lufa (past ++ [(s, e)]) s' := by
  obtain ⟨typed, overflow, locks⟩ := quiet
  refine ⟨?_, ?_, ?_⟩
  · rw [same.2.1, h.tpguard, sinceTyped_concat, typed, overflow]
    rfl
  · rw [same.1, same.2.1, h.tpGuard]
  · rw [same.2.2, h.touchPadLocked, locked_concat, locks, Bool.xor_false]

theorem Guarded.keyboard (h : Guarded lufa past s) (foreign : ∀ sc, lufa.sc sc ≠ lockTouchpad)
    (pins : Pins) :
    Guarded lufa (past ++ [(s, .keyboard pins)]) (s.keyboard lufa pins) := by
  rw [keyboard_eq foreign]
  cases typed : (Event.keyboard pins).typed lufa with
  | true =>
    rw [if_pos rfl]
    refine ⟨?_, ?_, ?_⟩
    · rw [sinceTyped_concat, typed]
      rfl
    · exact iff_of_true rfl (show 2 ≤ tpLock by decide)
    · rw [locked_concat, ← h.touchPadLocked]
      rfl
  | false =>
    rw [if_neg Bool.false_ne_true]
    refine ⟨?_, h.tpGuard, ?_⟩
    · rw [sinceTyped_concat, typed]
      exact h.tpguard
    · rw [locked_concat, ← h.touchPadLocked]
      rfl

theorem Guarded.overflow (h : Guarded lufa past s) (packet : Option (Fin 7 → BitVec 8)) :
    Guarded lufa (past ++ [(s, .overflow packet)]) (s.overflow packet) := by
  have less : (s.overflow packet).tpguard = s.tpguard - 1 := by
    change (if s.tpguard ≠ 0 then s.tpguard - 1 else s.tpguard) = _
    split <;> omega
  have off : (s.overflow packet).tpGuard =
      if (s.overflow packet).tpguard = 1 then false else s.tpGuard := rfl
  refine ⟨?_, ?_, ?_⟩
  · rw [less, h.tpguard, sinceTyped_concat]
    cases sinceTyped lufa past with
    | none => rfl
    | some n => exact Nat.sub_sub tpLock n 1
  · rw [off, less]
    split
    · rename_i one
      rw [one]
      decide
    · rw [h.tpGuard]
      omega
  · have other : (Event.overflow packet).locks = false := rfl
    rw [locked_concat, other, Bool.xor_false, ← h.touchPadLocked]
    rfl

theorem Guarded.of_run (foreign : ∀ sc, lufa.sc sc ≠ lockTouchpad) (run : Run lufa past s) :
    Guarded lufa past s := by
  induction run with
  | nil => exact ⟨rfl, by decide, rfl⟩
  | concat run event h =>
    cases event with
    | keyboard pins => exact h.keyboard foreign pins
    | mouse =>
      obtain ⟨guard, time, lock, -⟩ := createMouseReport_guard
      exact h.other ⟨rfl, rfl, rfl⟩ ⟨guard, time, lock⟩
    | int2 packet => exact h.other ⟨rfl, rfl, rfl⟩ ⟨rfl, rfl, rfl⟩
    | overflow packet => exact h.overflow packet
    | adc adch =>
      refine h.other ⟨rfl, rfl, rfl⟩ ?_
      unfold State.next State.adc
      dsimp only
      split <;> exact ⟨rfl, rfl, rfl⟩

/-- **The guard is on just when the timer has overflowed fewer than nineteen times since keys were
typed.** -/
theorem tpGuard_iff (foreign : ∀ sc, lufa.sc sc ≠ lockTouchpad) (run : Run lufa past s) :
    s.tpGuard = true ↔ ∃ n, sinceTyped lufa past = some n ∧ n < 19 := by
  have h := Guarded.of_run foreign run
  rw [h.tpGuard, h.tpguard]
  cases sinceTyped lufa past with
  | none => simp
  | some n =>
    have time : ((some n).map (tpLock - ·)).getD 0 = 20 - n := rfl
    rw [time]
    constructor
    · exact fun on => ⟨n, rfl, by omega⟩
    · rintro ⟨n', same, few⟩
      rw [← Option.some.inj same] at few
      omega

/-! ## The pointer -/

/-- The packet that an interrupt receives. -/
def Event.packet : Event → Option (Fin 7 → BitVec 8)
  | .int2 packet => packet
  | .overflow packet => packet
  | _ => none

/-- The last packet that was received. -/
def lastPacket (past : List (State × Event)) : Option (Fin 7 → BitVec 8) :=
  past.foldl (fun d p => p.2.packet.or d) none

@[simp] theorem lastPacket_concat (p : State × Event) :
    lastPacket (past ++ [p]) = p.2.packet.or (lastPacket past) := by
  rw [lastPacket, List.foldl_append]
  rfl

/-- An interrupt behind `early` that asks for a report: that of the touchpad, and that of the timer
when the touchpad has something to tell. The touchpad need not answer it, and then the packet is the
one before. -/
def Event.Asks (early : List (State × Event)) : Event → Prop
  | .int2 _ => True
  | .overflow packet => ∃ d, packet.or (lastPacket early) = some d ∧ d 0 ≠ 0
  | _ => False

/-- An interrupt behind `early` asks for a report with neither the guard nor the lock on. -/
def Used (lufa : Lufa) (early : List (State × Event)) (e : Event) : Prop :=
  e.Asks early ∧ locked early = false ∧ ∀ n, sinceTyped lufa early = some n → 19 ≤ n

/-- One has since the last report of the pointer. -/
def Waiting (lufa : Lufa) (past : List (State × Event)) : Prop :=
  ∃ early p late, past = early ++ p :: late ∧ Used lufa early p.2 ∧ ∀ q ∈ late, q.2 ≠ .mouse

theorem Waiting.concat (h : Waiting lufa past) {e : Event} (other : e ≠ .mouse) :
    Waiting lufa (past ++ [(s, e)]) := by
  obtain ⟨early, p, late, rfl, used, none⟩ := h
  refine ⟨early, p, late ++ [(s, e)], by simp, used, fun q mem => ?_⟩
  rcases List.mem_append.1 mem with old | new
  · exact none q old
  · rw [List.mem_singleton.1 new]
    exact other

theorem Waiting.new (h : Guarded lufa past s) {e : Event} (asks : e.Asks past)
    (free : (!s.touchPadLocked && !s.tpGuard) = true) : Waiting lufa (past ++ [(s, e)]) := by
  rw [Bool.and_eq_true, Bool.not_eq_true', Bool.not_eq_true'] at free
  refine ⟨past, (s, e), [], rfl, ⟨asks, h.touchPadLocked ▸ free.1, fun n since => ?_⟩,
    fun q mem => absurd mem List.not_mem_nil⟩
  have off : ¬2 ≤ s.tpguard := fun on => Bool.false_ne_true (free.2.symm.trans (h.tpGuard.2 on))
  have time : s.tpguard = 20 - n := by
    rw [h.tpguard, since]
    rfl
  omega

theorem keyboard_touch (pins : Pins) : (s.keyboard lufa pins).tpdata = s.tpdata ∧
    (s.keyboard lufa pins).actionSend = s.actionSend ∧
    (s.keyboard lufa pins).lastposX = s.lastposX := by
  unfold State.keyboard
  dsimp only
  split <;> exact ⟨rfl, rfl, rfl⟩

theorem adc_touch (adch : BitVec 8) : (s.adc adch).tpdata = s.tpdata ∧
    (s.adc adch).actionSend = s.actionSend ∧ (s.adc adch).lastposX = s.lastposX := by
  unfold State.adc
  split <;> exact ⟨rfl, rfl, rfl⟩

theorem createMouseReport_tpdata : s.createMouseReport.1.tpdata = s.tpdata := by
  cases sent : s.actionSend with
  | false => rw [createMouseReport_idle sent]
  | true =>
    rw [createMouseReport_sent sent]
    obtain ⟨-, way⟩ | ⟨-, way⟩ | ⟨-, way⟩ | ⟨-, -, -, way⟩ := fingers_cases s <;> rw [way] <;> rfl

/-- What an interrupt finds is the packet it receives, or the one before. -/
theorem found_eq (before : s.tpdata = (lastPacket past).getD 0)
    (packet : Option (Fin 7 → BitVec 8)) :
    packet.getD s.tpdata = (packet.or (lastPacket past)).getD 0 := by
  cases packet with
  | none => exact before
  | some d => rfl

/-- A report is made of the last packet of the run. -/
theorem tpdata_of_run (run : Run lufa past s) : s.tpdata = (lastPacket past).getD 0 := by
  induction run with
  | nil => rfl
  | concat run event ih =>
    rw [lastPacket_concat]
    cases event with
    | keyboard pins => exact (keyboard_touch pins).1.trans ih
    | mouse => exact createMouseReport_tpdata.trans ih
    | int2 packet => exact found_eq ih packet
    | overflow packet => exact found_eq ih packet
    | adc adch => exact (adc_touch adch).1.trans ih

/-- A byte other than 0 is of a packet that was received. -/
theorem packet_of_byte {d : Option (Fin 7 → BitVec 8)} {i : Fin 7} {b : BitVec 8}
    (byte : d.getD 0 i = b) (nonzero : b ≠ 0) : ∃ d', d = some d' ∧ d' i = b := by
  cases d with
  | none => exact absurd byte.symm nonzero
  | some d => exact ⟨d, rfl, byte⟩

/-- The timer finds that a touch has ended. -/
def State.ends (s : State) : Prop := (if s.touchTo ≠ 0 then s.touchTo - 1 else s.touchTo) = 1

/-- A packet of one finger at a position. -/
def finger (x y : BitVec 16) : Fin 7 → BitVec 8 := fun i =>
  [0, 0, 1, x.extractLsb' 8 8, x.extractLsb' 0 8, y.extractLsb' 8 8, y.extractLsb' 0 8].getD i 0

end Teres.Kbd.KeyboardMouse
