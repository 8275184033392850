import Teres.Laws.Kbd.Touchpad

/-!
# Taps

When the finger of a tap is lifted, a click is requested. The timer hands it over some time later,
and the next report of the pointer sends it. However the interrupts and the reports come in between,
there are never more clicks than taps (`clicks_le_taps`), and the click of a tap that no finger
follows is sent once, with the first report behind the eighth overflow (`tap_once`).
-/

namespace Teres.Kbd.KeyboardMouse

variable {lufa : Lufa} {past : List (State × Event)} {s : State}

/-! ## Clicks and taps -/

/-- A report with a button that is not pressed. -/
def clicked (p : State × Event) : Bool :=
  match p.2 with
  | .mouse => p.1.createMouseReport.2.button != p.1.mouse
  | _ => false

/-- A report that finds the end of a tap. -/
def taps (p : State × Event) : Bool :=
  match p.2 with
  | .mouse => p.1.actionSend && decide (p.1.tpdata 2 = 0 ∧ p.1.Tapped)
  | _ => false

/-- The clicks that are on their way. -/
def State.pending (s : State) : ℕ :=
  (if s.mrB = 0 then 0 else 1) + if s.mrBReq = 0 then 0 else 1

@[simp] theorem button_eq : s.createMouseReport.2.button = s.mrB ||| s.mouse := rfl

/-- The button that is requested for a tap. It is the right one when the timer has counted two
fingers, which need not have been those of this tap. -/
def State.request (s : State) : BitVec 8 := if s.timeTwo ≠ 0 then mouseRigth else mouseLeft

/-- The request of a packet. -/
theorem fingers_request : s.fingers.1.mrBReq =
    if s.tpdata 2 = 0 ∧ s.Tapped then s.request else s.mrBReq := by
  obtain ⟨zero, way⟩ | ⟨one, way⟩ | ⟨two, way⟩ | ⟨more, -, -, way⟩ := fingers_cases s
  · rw [way]
    exact if_congr (and_iff_right zero).symm rfl rfl
  · rw [way, if_neg fun h => absurd (one.symm.trans h.1) (by decide)]
    rfl
  · rw [way, if_neg fun h => absurd (two.symm.trans h.1) (by decide)]
    rfl
  · rw [way, if_neg fun h => more h.1]

theorem mouse_request : s.createMouseReport.1.mrBReq =
    if s.actionSend = true ∧ s.tpdata 2 = 0 ∧ s.Tapped then s.request else s.mrBReq := by
  cases sent : s.actionSend with
  | false =>
    rw [createMouseReport_idle sent, if_neg fun h => Bool.false_ne_true h.1]
  | true =>
    rw [createMouseReport_sent sent]
    exact fingers_request.trans (if_congr (and_iff_right rfl).symm rfl rfl)

theorem mouse_mrB : s.createMouseReport.1.mrB = 0 := rfl

/-- A report sends what waits, and may find a tap. -/
theorem mouse_pending : (if clicked (s, .mouse) then 1 else 0) + s.createMouseReport.1.pending ≤
    s.pending + if taps (s, .mouse) then 1 else 0 := by
  have waited : clicked (s, .mouse) = true → s.mrB ≠ 0 := by
    intro click zero
    rw [clicked, button_eq, zero, bne_iff_ne] at click
    exact click BitVec.zero_or
  have tapped : taps (s, .mouse) = true ↔ s.actionSend = true ∧ s.tpdata 2 = 0 ∧ s.Tapped := by
    rw [taps, Bool.and_eq_true, decide_eq_true_iff]
  rw [State.pending, mouse_mrB, mouse_request, State.pending]
  by_cases tap : taps (s, .mouse) = true
  · rw [if_pos (tapped.1 tap), if_pos tap]
    split <;> split <;> split <;> split <;> simp_all
  · rw [if_neg (mt tapped.2 tap), if_neg tap]
    split <;> split <;> simp_all

theorem overflow_timeZero (packet : Option (Fin 7 → BitVec 8)) :
    (s.overflow packet).timeZero = if s.timeZero ≠ 0xff ∧ packet.getD s.tpdata 2 = 0 then
      s.timeZero + 1 else s.timeZero := rfl

/-- The timer hands on what is requested. -/
theorem overflow_mrB (packet : Option (Fin 7 → BitVec 8)) :
    (s.overflow packet).mrB =
      (if (s.overflow packet).timeZero = touchToStart then s.mrBReq else s.mrB) ∧
    (s.overflow packet).mrBReq =
      if (s.overflow packet).timeZero = touchToStart then 0 else s.mrBReq := ⟨rfl, rfl⟩

theorem overflow_pending (packet : Option (Fin 7 → BitVec 8)) :
    (s.overflow packet).pending ≤ s.pending := by
  obtain ⟨button, request⟩ := overflow_mrB (s := s) packet
  rw [State.pending, button, request]
  split
  · rw [if_pos rfl]
    exact Nat.le_add_left _ _
  · exact Nat.le_refl _

theorem keyboard_mrB (pins : Pins) : (s.keyboard lufa pins).mrB = s.mrB ∧
    (s.keyboard lufa pins).mrBReq = s.mrBReq := by
  unfold State.keyboard
  dsimp only
  split <;> exact ⟨rfl, rfl⟩

theorem adc_mrB (adch : BitVec 8) : (s.adc adch).mrB = s.mrB ∧
    (s.adc adch).mrBReq = s.mrBReq := by
  unfold State.adc
  split <;> exact ⟨rfl, rfl⟩

/-- What is on its way behind an event, and what it sends. -/
theorem next_pending (event : Event) :
    (if clicked (s, event) then 1 else 0) + (s.next lufa event).pending ≤
      s.pending + if taps (s, event) then 1 else 0 := by
  cases event with
  | mouse => exact mouse_pending
  | keyboard pins =>
    have same : (s.keyboard lufa pins).mrB = s.mrB ∧ (s.keyboard lufa pins).mrBReq = s.mrBReq :=
      keyboard_mrB pins
    refine Nat.le_of_eq ((Nat.zero_add _).trans ?_)
    rw [State.next, State.pending, same.1, same.2]
    rfl
  | int2 packet => exact Nat.le_of_eq (Nat.zero_add _)
  | overflow packet =>
    exact (Nat.le_of_eq (Nat.zero_add _)).trans (overflow_pending packet)
  | adc adch =>
    have same : (s.adc adch).mrB = s.mrB ∧ (s.adc adch).mrBReq = s.mrBReq := adc_mrB adch
    refine Nat.le_of_eq ((Nat.zero_add _).trans ?_)
    rw [State.next, State.pending, same.1, same.2]
    rfl

/-- **There are never more clicks than taps.** -/
theorem clicks_le_taps (run : Run lufa past s) : past.countP clicked ≤ past.countP taps := by
  have kept : past.countP clicked + s.pending ≤ past.countP taps := by
    induction run with
    | nil => decide
    | @concat past s run event ih =>
      have step : (if clicked (s, event) then 1 else 0) + (s.next lufa event).pending ≤
          s.pending + if taps (s, event) then 1 else 0 := next_pending event
      rw [List.countP_append, List.countP_append, List.countP_singleton, List.countP_singleton]
      omega
  omega

/-- A packet without a finger, with the position where it was lifted. -/
def lifted (x y : BitVec 16) : Fin 7 → BitVec 8 := fun i => if i = 2 then 0 else finger x y i

/-- A finger is put down and lifted again. -/
def tapped : List Event :=
  List.replicate 4 (.overflow none) ++
    [.int2 (some (finger 0x100 0x200)), .mouse, .int2 (some (lifted 0x100 0x200))]

/-- Its click is sent behind the eighth overflow. -/
def clickedTap : List Event := tapped ++ .mouse :: List.replicate 8 (.overflow none) ++ [.mouse]

theorem clicks_le_taps_tap : (happens usages .start clickedTap).countP clicked = 1 ∧
    (happens usages .start clickedTap).countP clicked ≤
      (happens usages .start clickedTap).countP taps :=
  ⟨by decide, clicks_le_taps ((Run.nil : Run usages [] .start).happens clickedTap)⟩

/-! ## A tap -/

/-- A packet that comes has no finger. -/
def Event.Fingerless : Event → Prop
  | .int2 packet => ∀ d, packet = some d → d 2 = 0
  | .overflow packet => ∀ d, packet = some d → d 2 = 0
  | _ => True

/-- The number of overflows. -/
def overflows (events : List Event) : ℕ := events.countP Event.isOverflow

/-- A report has been made behind the eighth overflow. -/
def Served (events : List Event) : Prop :=
  ∃ early late, events = early ++ .mouse :: late ∧ 8 ≤ overflows early

/-- What has become of a tap after some events. -/
structure Lifted (request : BitVec 8) (events : List Event) (s : State) : Prop where
  fingers : s.tpdata 2 = 0
  lastfingers : s.lastfingers = 0
  timeZero : s.timeZero = min (overflows events) 0xff
  waits : overflows events < 8 → s.mrBReq = request ∧ s.mrB = 0
  sends : 8 ≤ overflows events → s.mrBReq = 0 ∧
    (¬Served events → s.mrB = request) ∧ (Served events → s.mrB = 0)

theorem overflows_concat (events : List Event) (e : Event) :
    overflows (events ++ [e]) = overflows events + if e.isOverflow then 1 else 0 := by
  rw [overflows, List.countP_append, List.countP_singleton]
  rfl

theorem served_concat (events : List Event) (e : Event) :
    Served (events ++ [e]) ↔ Served events ∨ e = .mouse ∧ 8 ≤ overflows events := by
  constructor
  · rintro ⟨early, late, split, eight⟩
    rcases List.eq_nil_or_concat late with rfl | ⟨late, last, rfl⟩
    · obtain ⟨rfl, same⟩ := List.append_inj' split rfl
      exact .inr ⟨List.head_eq_of_cons_eq same, eight⟩
    · rw [List.concat_eq_append, ← List.cons_append, ← List.append_assoc] at split
      obtain ⟨rfl, -⟩ := List.append_inj' split rfl
      exact .inl ⟨early, late, rfl, eight⟩
  · rintro (⟨early, late, rfl, eight⟩ | ⟨rfl, eight⟩)
    · exact ⟨early, late ++ [e], by simp, eight⟩
    · exact ⟨events, [], rfl, eight⟩

theorem Served.eight {events : List Event} (served : Served events) : 8 ≤ overflows events := by
  obtain ⟨early, late, rfl, eight⟩ := served
  rw [overflows, List.countP_append]
  exact Nat.le_add_right_of_le eight

/-- An event that is no overflow and no report leaves the tap. -/
theorem Lifted.other {request : BitVec 8} {events : List Event} (h : Lifted request events s)
    {s' : State} {e : Event} (quiet : e.isOverflow = false ∧ e ≠ .mouse)
    (fingers : s'.tpdata 2 = 0)
    (same : s'.lastfingers = s.lastfingers ∧ s'.timeZero = s.timeZero ∧ s'.mrB = s.mrB ∧
      s'.mrBReq = s.mrBReq) : Lifted request (events ++ [e]) s' := by
  have number : overflows (events ++ [e]) = overflows events := by
    rw [overflows_concat, quiet.1]
    rfl
  have served : Served (events ++ [e]) ↔ Served events := by
    rw [served_concat]
    exact or_iff_left fun h => quiet.2 h.1
  obtain ⟨last, time, button, requested⟩ := same
  refine ⟨fingers, last.trans h.lastfingers, ?_, ?_, ?_⟩
  · rw [time, number, h.timeZero]
  · rw [number, button, requested]
    exact h.waits
  · rw [number, button, requested, served]
    exact h.sends

/-- A report of a packet without a finger. -/
theorem mouse_noFinger (sent : s.actionSend = true) (lifted : s.tpdata 2 = 0) :
    s.createMouseReport.1 =
      { s.noFinger with lastfingers := s.tpdata 2, actionSend := false, mrB := 0 } := by
  rw [createMouseReport_sent sent, State.fingers, if_pos lifted]

theorem Lifted.start (sent : s.actionSend = true) (lifted : s.tpdata 2 = 0) (tapped : s.Tapped) :
    Lifted s.request [] s.createMouseReport.1 := by
  rw [mouse_noFinger sent lifted]
  refine ⟨lifted, lifted, if_pos tapped.1, fun _ => ⟨if_pos tapped, rfl⟩, fun eight => ?_⟩
  exact absurd eight (by decide)

theorem Lifted.mouse {request : BitVec 8} {events : List Event} (h : Lifted request events s) :
    Lifted request (events ++ [.mouse]) s.createMouseReport.1 := by
  have untapped : ¬s.Tapped := fun tapped => tapped.1 h.lastfingers
  have requested : s.createMouseReport.1.mrBReq = s.mrBReq := by
    rw [mouse_request, if_neg fun h => untapped h.2.2]
  have number : overflows (events ++ [.mouse]) = overflows events := overflows_concat _ _
  have rest : s.createMouseReport.1.tpdata 2 = 0 ∧ s.createMouseReport.1.lastfingers = 0 ∧
      s.createMouseReport.1.timeZero = s.timeZero := by
    cases sent : s.actionSend with
    | false =>
      rw [createMouseReport_idle sent]
      exact ⟨h.fingers, h.lastfingers, rfl⟩
    | true =>
      rw [mouse_noFinger sent h.fingers]
      exact ⟨h.fingers, h.fingers, if_neg (not_not_intro h.lastfingers)⟩
  refine ⟨rest.1, rest.2.1, ?_, ?_, ?_⟩
  · rw [rest.2.2, number, h.timeZero]
  · rw [number, requested]
    exact fun few => ⟨(h.waits few).1, rfl⟩
  · rw [number, requested]
    intro eight
    have served : Served (events ++ [.mouse]) := (served_concat _ _).2 (.inr ⟨rfl, eight⟩)
    exact ⟨(h.sends eight).1, absurd served, fun _ => rfl⟩

theorem Lifted.overflow {request : BitVec 8} {events : List Event} (h : Lifted request events s)
    {packet : Option (Fin 7 → BitVec 8)} (none : packet.getD s.tpdata 2 = 0) :
    Lifted request (events ++ [.overflow packet]) (s.overflow packet) := by
  have number : overflows (events ++ [.overflow packet]) = overflows events + 1 :=
    overflows_concat _ _
  have served : Served (events ++ [.overflow packet]) ↔ Served events := by
    rw [served_concat]
    exact or_iff_left fun h => by cases h.1
  have time : (s.overflow packet).timeZero = min (overflows events + 1) 0xff := by
    rw [overflow_timeZero, h.timeZero]
    simp only [none, and_true]
    split <;> omega
  have started : (s.overflow packet).timeZero = touchToStart ↔ overflows events = 7 := by
    rw [time, touchToStart]
    omega
  obtain ⟨button, requested⟩ := overflow_mrB (s := s) packet
  have last : (s.overflow packet).lastfingers = 0 := by
    have ways (p : Prop) [Decidable p] : (if p then 0 else s.lastfingers) = 0 := by
      split
      · rfl
      · exact h.lastfingers
    exact ways _
  refine ⟨none, last, time.trans (by rw [number]), ?_, ?_⟩
  · intro few
    rw [number] at few
    have early : ¬(s.overflow packet).timeZero = touchToStart := mt started.1 (by omega)
    rw [button, requested, if_neg early, if_neg early]
    exact h.waits (by omega)
  · intro eight
    rw [number] at eight
    rw [button, requested, served]
    by_cases now : overflows events = 7
    · -- the eighth overflow hands the request over
      have unserved : ¬Served events := fun served => by
        have := served.eight
        omega
      rw [if_pos (started.2 now), if_pos (started.2 now)]
      exact ⟨rfl, fun _ => (h.waits (by omega)).1, fun served => absurd served unserved⟩
    · rw [if_neg (mt started.1 now), if_neg (mt started.1 now)]
      exact h.sends (by omega)

theorem Lifted.next {request : BitVec 8} {events : List Event} (h : Lifted request events s)
    {e : Event} (none : e.Fingerless) : Lifted request (events ++ [e]) (s.next lufa e) := by
  have delivered {packet : Option (Fin 7 → BitVec 8)} (none : ∀ d, packet = some d → d 2 = 0) :
      packet.getD s.tpdata 2 = 0 := by
    cases packet with
    | none => exact h.fingers
    | some d => exact none d rfl
  cases e with
  | keyboard pins =>
    refine h.other ⟨rfl, fun h => by cases h⟩ ?_ ?_
    all_goals
      unfold State.next State.keyboard
      dsimp only
    · split <;> exact h.fingers
    · split <;> exact ⟨rfl, rfl, rfl, rfl⟩
  | mouse => exact h.mouse
  | int2 packet =>
    exact h.other ⟨rfl, fun h => by cases h⟩ (delivered none) ⟨rfl, rfl, rfl, rfl⟩
  | overflow packet => exact h.overflow (delivered none)
  | adc adch =>
    refine h.other ⟨rfl, fun h => by cases h⟩ ?_ ?_
    all_goals
      unfold State.next State.adc
      dsimp only
    · split <;> exact h.fingers
    · split <;> exact ⟨rfl, rfl, rfl, rfl⟩

theorem Lifted.after {request : BitVec 8} (h : Lifted request [] s) {events : List Event}
    (none : ∀ e ∈ events, e.Fingerless) :
    Lifted request events (events.foldl (State.next lufa) s) := by
  induction events using List.reverseRecOn with
  | nil => exact h
  | append_singleton events e ih =>
    rw [List.foldl_append]
    exact (ih fun e mem => none e (List.mem_append_left _ mem)).next
      (none e (List.mem_append_right _ List.mem_cons_self))

/-- **The click of a tap is sent once.** A report finds the end of a tap, and no finger comes after
it. Whatever reports and interrupts follow, in whatever order, the next report has the button of the
tap just when eight overflows are behind and no report has been made since the eighth; apart from
that it has what is pressed. The button is the right one when `timeTwo` is not 0. -/
theorem tap_once (sent : s.actionSend = true) (lifted : s.tpdata 2 = 0) (tapped : s.Tapped)
    {events : List Event} (none : ∀ e ∈ events, e.Fingerless) :
    let s' := events.foldl (State.next lufa) s.createMouseReport.1
    (8 ≤ overflows events ∧ ¬Served events → s'.createMouseReport.2.button =
      (if s.timeTwo ≠ 0 then mouseRigth else mouseLeft) ||| s'.mouse) ∧
    (¬(8 ≤ overflows events ∧ ¬Served events) → s'.createMouseReport.2.button = s'.mouse) := by
  intro s'
  have h : Lifted _ events s' := (Lifted.start sent lifted tapped).after none
  have unpressed (b : BitVec 8) : 0 ||| b = b := BitVec.zero_or
  constructor
  · rintro ⟨eight, unserved⟩
    rw [button_eq, (h.sends eight).2.1 unserved]
    rfl
  · intro rest
    have zero : s'.mrB = 0 := by
      rcases Nat.lt_or_ge (overflows events) 8 with few | eight
      · exact (h.waits few).2
      · exact (h.sends eight).2.2 (by_contra fun unserved => rest ⟨eight, unserved⟩)
    rw [button_eq, zero, unpressed]

theorem tap_once_left :
    ((List.replicate 8 (Event.overflow none)).foldl (State.next usages)
      (tapped.foldl (State.next usages) .start).createMouseReport.1).createMouseReport.2.button =
        mouseLeft ||| 0 := by
  have unserved : ¬Served (List.replicate 8 (.overflow none)) := by
    rintro ⟨early, late, split, -⟩
    have member : Event.mouse ∈ List.replicate 8 (Event.overflow none) := by
      rw [split]
      exact List.mem_append_right _ List.mem_cons_self
    cases List.eq_of_mem_replicate member
  refine (@tap_once usages (tapped.foldl (State.next usages) .start) (by decide) (by decide)
    (by decide) _ fun e member => ?_).1 ⟨by decide, unserved⟩
  rw [List.eq_of_mem_replicate member]
  exact fun d given => by cases given

end Teres.Kbd.KeyboardMouse
