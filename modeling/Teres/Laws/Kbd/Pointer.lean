import Teres.Laws.Kbd.Touchpad

/-!
# The speed of the pointer

A report of the pointer has the way of the finger since the last packet of a report, cut off at
`speedlimit`. The position of that packet is lost when the timer overflows seven times before the
next, and at the left edge (`kept`). The limit grows by four with each packet of one finger, up to
`0x80`, and there the byte of the report turns a fast way forwards into one backwards
(`pointer_eq`).
-/

namespace Teres.Kbd.KeyboardMouse

variable {lufa : Lufa} {past : List (State × Event)} {s : State}

/-! ## A way that is cut off -/

/-- The byte of a report. -/
theorem byte_toInt (v : BitVec 16) : (v.setWidth 8).toInt = v.toInt.bmod 256 := by
  rw [BitVec.toInt_setWidth, BitVec.toInt_eq_toNat_bmod]
  exact (Int.bmod_bmod_of_dvd (by decide)).symm

theorem limited_toInt {limit : ℕ} (small : limit ≤ 128) {v : BitVec 16}
    (proper : v.toInt ≠ -32768) :
    (limited limit v).toInt = max (-(limit : ℤ)) (min limit v.toInt) := by
  have least : v ≠ BitVec.intMin 16 := by
    rintro rfl
    exact proper (by decide)
  have positive : (BitVec.ofNat 16 limit).toInt = limit := by
    rw [BitVec.toInt_eq_toNat_bmod, BitVec.toNat_ofNat, Int.bmod_def]
    omega
  have negative : (-BitVec.ofNat 16 limit).toInt = -limit := by
    rw [BitVec.toInt_neg, positive, Int.bmod_def]
    omega
  unfold limited
  rw [BitVec.toInt_abs_eq_natAbs_of_ne_intMin least]
  split
  · split
    · rw [negative]
      omega
    · omega
  · split
    · rw [positive]
      omega
    · omega

/-- What a report says of a way, with a limit that has grown for `k` packets. -/
def steered (k : ℕ) (way : ℤ) : ℤ :=
  if way = -32768 then 0
  else if 32 ≤ k ∧ 128 ≤ way then -128
  else max (-(4 * min 32 k : ℕ)) (min (4 * min 32 k : ℕ) way)

theorem limited_byte (k : ℕ) (v : BitVec 16) :
    ((limited (4 * min 32 k) v).setWidth 8).toInt = steered k v.toInt := by
  rw [byte_toInt, steered]
  split
  · rename_i least
    obtain rfl : v = BitVec.intMin 16 := BitVec.eq_of_toInt_eq (least.trans (by decide))
    have whole : limited (4 * min 32 k) (BitVec.intMin 16) = BitVec.intMin 16 := by
      rw [limited, if_pos (by decide), if_neg]
      have size : (BitVec.intMin 16).abs.toInt = -32768 := by decide
      rw [size]
      omega
    rw [whole]
    decide
  · rename_i proper
    rw [limited_toInt (by omega) proper, Int.bmod_def]
    split <;> split <;> omega

/-! ## The limit -/

/-- The packets of one finger that reports were made of since it was put down, after one more
event. -/
def stroke (k : ℕ) (p : State × Event) : ℕ :=
  match p.2 with
  | .mouse =>
    if p.1.actionSend = true then
      if p.1.tpdata 2 = 0 then 0
      else if p.1.tpdata 2 = 1 then
        if p.1.lastfingers = 0 ∨ p.1.lastfingers = 2 then 1 else k + 1
      else k
    else k
  | _ => k

/-- The packets of one finger since it was put down. -/
def strokes (past : List (State × Event)) : ℕ := past.foldl stroke 0

theorem strokes_concat (p : State × Event) : strokes (past ++ [p]) = stroke (strokes past) p := by
  rw [strokes, List.foldl_append]
  rfl

theorem mouse_speedlimit {k : ℕ} (h : s.speedlimit = 4 * min 32 k) :
    s.createMouseReport.1.speedlimit = 4 * min 32 (stroke k (s, .mouse)) := by
  unfold stroke
  dsimp only
  cases sent : s.actionSend with
  | false =>
    rw [createMouseReport_idle sent, if_neg Bool.false_ne_true]
    exact h
  | true =>
    rw [createMouseReport_sent sent, if_pos rfl]
    obtain ⟨zero, way⟩ | ⟨one, way⟩ | ⟨two, way⟩ | ⟨zero, one, -, way⟩ := fingers_cases s
    · rw [way, if_pos zero]
      rfl
    · have down : ¬s.tpdata 2 = 0 := fun zero => absurd (zero.symm.trans one) (by decide)
      rw [way, if_neg down, if_pos one]
      unfold State.oneFinger
      dsimp only
      by_cases first : s.lastfingers = 0 ∨ s.lastfingers = 2
      · rw [if_pos first, if_pos first]
        decide
      · rw [if_neg first, if_neg first, h]
        split <;> omega
    · have down : ¬s.tpdata 2 = 0 := fun zero => absurd (zero.symm.trans two) (by decide)
      have more : ¬s.tpdata 2 = 1 := fun one => absurd (one.symm.trans two) (by decide)
      rw [way, if_neg down, if_neg more]
      exact h
    · rw [way, if_neg zero, if_neg one]
      exact h

theorem speedlimit_of_run (run : Run lufa past s) : s.speedlimit = 4 * min 32 (strokes past) := by
  induction run with
  | nil => rfl
  | @concat past s run event ih =>
    rw [strokes_concat]
    cases event with
    | keyboard pins =>
      have same : (s.keyboard lufa pins).speedlimit = s.speedlimit := by
        unfold State.keyboard
        dsimp only
        split <;> rfl
      exact same.trans ih
    | mouse => exact mouse_speedlimit ih
    | int2 packet => exact ih
    | overflow packet => exact ih
    | adc adch =>
      have same : (s.adc adch).speedlimit = s.speedlimit := by
        unfold State.adc
        split <;> rfl
      exact same.trans ih

/-! ## The position -/

/-- The position of a packet. -/
def posX (d : Fin 7 → BitVec 8) : BitVec 16 := d 3 ++ d 4

/-- Its other half. -/
def posY (d : Fin 7 → BitVec 8) : BitVec 16 := d 5 ++ d 6

/-- The last packet that a report was made of, and how many times the timer has overflowed since,
after one more event. -/
def trail (t : Option ((Fin 7 → BitVec 8) × ℕ)) (p : State × Event) :
    Option ((Fin 7 → BitVec 8) × ℕ) :=
  match p.2 with
  | .mouse => if p.1.actionSend = true then some (p.1.tpdata, 0) else t
  | .overflow _ => t.map fun u => (u.1, u.2 + 1)
  | _ => t

/-- The last packet that a report was made of, and how many times the timer has overflowed since. -/
def trails (past : List (State × Event)) : Option ((Fin 7 → BitVec 8) × ℕ) :=
  past.foldl trail none

/-- It has one finger, off the left edge, and the touch has not ended since. -/
def kept (past : List (State × Event)) : Option (Fin 7 → BitVec 8) :=
  (trails past).bind fun u => if u.1 2 = 1 ∧ u.2 < 7 ∧ posX u.1 ≠ 0 then some u.1 else none

/-- The way of one finger from there to the last packet that was received. -/
def way (past : List (State × Event)) : Option (BitVec 16 × BitVec 16) :=
  (lastPacket past).bind fun d' => (kept past).bind fun d =>
    if d' 2 = 1 then some (posX d' - posX d, posY d' - posY d) else none

theorem trails_concat (p : State × Event) : trails (past ++ [p]) = trail (trails past) p := by
  rw [trails, List.foldl_append]
  rfl

/-- What the variables of the position have to do with what has happened. -/
structure Trailed (past : List (State × Event)) (s : State) : Prop where
  start : trails past = none → s.lastfingers = 0
  other : ∀ {d n}, trails past = some (d, n) → d 2 ≠ 1 → s.lastfingers ≠ 1
  one : ∀ {d n}, trails past = some (d, n) → d 2 = 1 → n < 7 →
    s.lastfingers = 1 ∧ s.touchTo = 8 - n ∧ s.lastposX = posX d ∧ s.lastposY = posY d
  gone : ∀ {d n}, trails past = some (d, n) → d 2 = 1 → 7 ≤ n → s.lastposX = 0

/-- An event that leaves the position. -/
theorem Trailed.same (h : Trailed past s) {s' : State} {e : Event}
    (quiet : trail (trails past) (s, e) = trails past)
    (same : s'.lastfingers = s.lastfingers ∧ s'.touchTo = s.touchTo ∧
      s'.lastposX = s.lastposX ∧ s'.lastposY = s.lastposY) :
    Trailed (past ++ [(s, e)]) s' := by
  have kept : trails (past ++ [(s, e)]) = trails past := (trails_concat _).trans quiet
  obtain ⟨fingers, time, x, y⟩ := same
  constructor <;> rw [kept]
  · rw [fingers]
    exact h.start
  · rw [fingers]
    exact h.other
  · rw [fingers, time, x, y]
    exact h.one
  · rw [x]
    exact h.gone

/-- A report that is made of a packet. -/
theorem Trailed.sent (sent : s.actionSend = true) :
    Trailed (past ++ [(s, .mouse)]) s.createMouseReport.1 := by
  have used : trails (past ++ [(s, .mouse)]) = some (s.tpdata, 0) :=
    (trails_concat _).trans (if_pos sent)
  have fingers : s.createMouseReport.1.lastfingers = s.tpdata 2 := by
    rw [createMouseReport_sent sent]
  constructor <;> rw [used]
  · exact fun none => by cases none
  · intro d n same many
    cases same
    rw [fingers]
    exact many
  · intro d n same one _
    cases same
    refine ⟨fingers.trans one, ?_⟩
    have down : ¬s.tpdata 2 = 0 := fun zero => absurd (zero.symm.trans one) (by decide)
    rw [createMouseReport_sent sent, State.fingers, if_neg down, if_pos one]
    exact ⟨rfl, rfl, rfl⟩
  · intro d n same _ late
    cases same
    exact absurd late (by decide)

theorem Trailed.overflow (h : Trailed past s) (packet : Option (Fin 7 → BitVec 8)) :
    Trailed (past ++ [(s, .overflow packet)]) (s.overflow packet) := by
  have later : trails (past ++ [(s, .overflow packet)]) =
      (trails past).map fun u => (u.1, u.2 + 1) := trails_concat _
  have time : (s.overflow packet).touchTo = s.touchTo - 1 := by
    change (if s.touchTo ≠ 0 then s.touchTo - 1 else s.touchTo) = _
    split <;> omega
  have position : ((s.overflow packet).touchTo = 1 → (s.overflow packet).lastposX = 0) ∧
      ((s.overflow packet).touchTo ≠ 1 → (s.overflow packet).lastposX = s.lastposX ∧
        (s.overflow packet).lastposY = s.lastposY) :=
    ⟨fun ends => if_pos ends, fun running => ⟨if_neg running, if_neg running⟩⟩
  have fingers : (s.overflow packet).lastfingers = s.lastfingers ∨
      (s.overflow packet).touchTo = 1 ∧ (s.overflow packet).lastfingers = 0 := by
    by_cases ends : (s.overflow packet).touchTo = 1 ∧ (s.overflow packet).presstime = 0
    · exact .inr ⟨ends.1, if_pos ends⟩
    · exact .inl (if_neg ends)
  constructor <;> rw [later]
  · intro none
    rcases fingers with same | ⟨-, zero⟩
    · exact same.trans (h.start (Option.map_eq_none_iff.1 none))
    · exact zero
  · intro d n split many
    obtain ⟨u, before, here⟩ := Option.map_eq_some_iff.1 split
    cases here
    rcases fingers with same | ⟨-, zero⟩
    · rw [same]
      exact h.other before many
    · rw [zero]
      decide
  · intro d n split one early
    obtain ⟨u, before, here⟩ := Option.map_eq_some_iff.1 split
    cases here
    obtain ⟨finger, running, x, y⟩ := h.one before one (by omega)
    have still : (s.overflow packet).touchTo ≠ 1 := by omega
    rcases fingers with same | ⟨ends, -⟩
    · refine ⟨same.trans finger, by omega, ?_⟩
      obtain ⟨keptX, keptY⟩ := position.2 still
      exact ⟨keptX.trans x, keptY.trans y⟩
    · exact absurd ends still
  · intro d n split one late
    obtain ⟨u, before, here⟩ := Option.map_eq_some_iff.1 split
    cases here
    by_cases now : u.2 = 6
    · -- the seventh overflow ends the touch
      obtain ⟨-, running, -⟩ := h.one before one (by omega)
      exact position.1 (by omega)
    · by_cases ends : (s.overflow packet).touchTo = 1
      · exact position.1 ends
      · exact (position.2 ends).1.trans (h.gone before one (by omega))

theorem trailed_of_run (run : Run lufa past s) : Trailed past s := by
  induction run with
  | nil =>
    refine ⟨fun _ => rfl, ?_, ?_, ?_⟩ <;> intro d n none <;> cases none
  | @concat past s run event ih =>
    cases event with
    | keyboard pins =>
      refine ih.same rfl ?_
      unfold State.next State.keyboard
      dsimp only
      split <;> exact ⟨rfl, rfl, rfl, rfl⟩
    | mouse =>
      cases sent : s.actionSend with
      | false =>
        refine ih.same (if_neg (Bool.eq_false_iff.1 sent)) ?_
        rw [State.next, createMouseReport_idle sent]
        exact ⟨rfl, rfl, rfl, rfl⟩
      | true => exact .sent sent
    | int2 packet => exact ih.same rfl ⟨rfl, rfl, rfl, rfl⟩
    | overflow packet => exact ih.overflow packet
    | adc adch =>
      refine ih.same rfl ?_
      unfold State.next State.adc
      dsimp only
      split <;> exact ⟨rfl, rfl, rfl, rfl⟩

/-- Where a position is kept, the variables have it, and elsewhere a report cannot move. -/
theorem Trailed.kept (h : Trailed past s) :
    (∀ {d}, kept past = some d → s.lastfingers = 1 ∧ s.lastposX ≠ 0 ∧ s.lastposX = posX d ∧
      s.lastposY = posY d) ∧
    (kept past = none → ¬(s.lastfingers = 1 ∧ s.lastposX ≠ 0)) := by
  unfold KeyboardMouse.kept
  cases last : trails past with
  | none =>
    refine ⟨fun same => (by cases same), fun _ moves => ?_⟩
    exact absurd ((h.start last).symm.trans moves.1) (by decide)
  | some u =>
    obtain ⟨d, n⟩ := u
    rw [Option.bind_some]
    by_cases here : d 2 = 1 ∧ n < 7 ∧ posX d ≠ 0
    · rw [if_pos here]
      obtain ⟨fingers, -, x, y⟩ := h.one last here.1 here.2.1
      refine ⟨fun same => ?_, fun none => by cases none⟩
      cases same
      exact ⟨fingers, x ▸ here.2.2, x, y⟩
    · rw [if_neg here]
      refine ⟨fun same => (by cases same), fun _ moves => here ?_⟩
      have one : d 2 = 1 := by_contra fun many => h.other last many moves.1
      have early : n < 7 := Nat.not_le.1 fun late => moves.2 (h.gone last one late)
      exact ⟨one, early, (h.one last one early).2.2.1 ▸ moves.2⟩

/-! ## The report -/

/-- A report made of the way of one finger. -/
def State.Strokes (s : State) : Prop :=
  s.actionSend = true ∧ s.tpdata 2 = 1 ∧ s.lastfingers = 1 ∧ s.lastposX ≠ 0

instance (s : State) : Decidable s.Strokes := inferInstanceAs (Decidable (_ ∧ _))

/-- The bytes of a report. -/
theorem report_limited : s.createMouseReport.2.x = (if s.Strokes then
      (limited s.speedlimit (s.posx1 - s.lastposX)).setWidth 8 else 0) ∧
    s.createMouseReport.2.y = if s.Strokes then
      (limited s.speedlimit (s.posy1 - s.lastposY)).setWidth 8 else 0 := by
  cases sent : s.actionSend with
  | false =>
    have idle : ¬s.Strokes := fun h => Bool.false_ne_true (sent.symm.trans h.1)
    rw [createMouseReport_idle sent, if_neg idle, if_neg idle]
    exact ⟨rfl, rfl⟩
  | true =>
    rw [createMouseReport_sent sent]
    obtain ⟨zero, way⟩ | ⟨one, way⟩ | ⟨two, way⟩ | ⟨-, more, -, way⟩ := fingers_cases s
    · have other : ¬s.Strokes := fun h => absurd (h.2.1.symm.trans zero) (by decide)
      rw [way, if_neg other, if_neg other]
      exact ⟨rfl, rfl⟩
    · rw [way, State.oneFinger]
      dsimp only
      by_cases still : s.lastfingers = 1 ∧ s.lastposX ≠ 0
      · have strokes : s.Strokes := ⟨sent, one, still⟩
        rw [if_pos still, if_pos strokes, if_pos strokes]
        exact ⟨rfl, rfl⟩
      · have other : ¬s.Strokes := fun h => still h.2.2
        rw [if_neg still, if_neg other, if_neg other]
        exact ⟨rfl, rfl⟩
    · have other : ¬s.Strokes := fun h => absurd (h.2.1.symm.trans two) (by decide)
      rw [way, if_neg other, if_neg other]
      exact ⟨rfl, rfl⟩
    · have other : ¬s.Strokes := fun h => more h.2.1
      rw [way, if_neg other, if_neg other]
      exact ⟨rfl, rfl⟩

/-- A report moves just where there is a way. -/
theorem strokes_iff (run : Run lufa past s) :
    (∀ v, s.actionSend = true → way past = some v →
      s.Strokes ∧ v = (s.posx1 - s.lastposX, s.posy1 - s.lastposY)) ∧
    (s.actionSend = false ∨ way past = none → ¬s.Strokes) := by
  have found : s.tpdata = (lastPacket past).getD 0 := tpdata_of_run run
  obtain ⟨there, away⟩ := (trailed_of_run run).kept
  unfold way
  constructor
  · intro v sent same
    obtain ⟨d', last, same⟩ := Option.bind_eq_some_iff.1 same
    obtain ⟨d, here, same⟩ := Option.bind_eq_some_iff.1 same
    split at same
    · rename_i one
      cases same
      rw [last] at found
      obtain ⟨fingers, off, x, y⟩ := there here
      refine ⟨⟨sent, found ▸ one, fingers, off⟩, ?_⟩
      rw [State.posx1, State.posy1, found, x, y]
      rfl
    · cases same
  · rintro (idle | none) ⟨sent, one, moves⟩
    · exact Bool.false_ne_true (idle.symm.trans sent)
    · obtain ⟨d', last, one⟩ := packet_of_byte ((congrFun found 2).symm.trans one) (by decide)
      rw [last, Option.bind_some] at none
      cases here : KeyboardMouse.kept past with
      | none => exact away here moves
      | some d =>
        rw [here, Option.bind_some, if_pos one] at none
        cases none

/-- **The way of the pointer.** In every run a report that an interrupt has asked for has the way of
the one finger from the last packet of a report to the last packet that was received, cut off at
four times the number of packets since it was put down, and at most at 128. Behind 32 packets a way
of 128 and more is sent as 128 backwards, and the most negative way is never sent. Where the
position of the last packet of a report is lost, and in any other report, the pointer stays. -/
theorem pointer_eq (run : Run lufa past s) :
    (∀ v, s.actionSend = true → way past = some v →
      s.createMouseReport.2.x.toInt = steered (strokes past) v.1.toInt ∧
      s.createMouseReport.2.y.toInt = steered (strokes past) v.2.toInt) ∧
    (s.actionSend = false ∨ way past = none →
      s.createMouseReport.2.x = 0 ∧ s.createMouseReport.2.y = 0) := by
  obtain ⟨x, y⟩ := report_limited (s := s)
  rw [speedlimit_of_run run] at x y
  rw [x, y]
  constructor
  · intro v sent same
    obtain ⟨moves, rfl⟩ := (strokes_iff run).1 v sent same
    rw [if_pos moves, if_pos moves]
    exact ⟨limited_byte _ _, limited_byte _ _⟩
  · intro stays
    have other : ¬s.Strokes := (strokes_iff run).2 stays
    rw [if_neg other, if_neg other]
    exact ⟨rfl, rfl⟩

/-- A finger that goes right, the second time faster than the limit. -/
def dragged : List Event :=
  [.int2 (some (finger 0x100 0x200)), .mouse, .int2 (some (finger 0x103 0x1fe)), .mouse,
    .int2 (some (finger 0x120 0x1fe))]

theorem pointer_eq_dragged :
    (dragged.foldl (State.next usages) .start).createMouseReport.2.x.toInt = steered 2 29 ∧
    (dragged.foldl (State.next usages) .start).createMouseReport.2.y.toInt = steered 2 0 :=
  (pointer_eq ((Run.nil : Run usages [] .start).happens dragged)).1 (29#16, 0#16) (by decide)
    (by decide)

end Teres.Kbd.KeyboardMouse
