import Mathlib.Data.Nat.Count
import Teres.Laws.Rtl.DisplayTiming

/-!
# The words of the frame generator

`due` is the number of requests before a position of the frame, in closed form, and `reads_eq` says
that it is the number of words the queue has delivered since `O_sync` fell. So the word in `data`
is known at every position (`data_eq`), and with it the colour of every pixel: `pixel_colour` gives
the pixel of column `x` the nibble of word `80 * y + (x + 1) / 8`.

That is the word of the pixel in every column but the last of its word, where the next word is in
`data` already: the load is timed by `xpos_next`, the nibble selected by `xpos`, one cycle behind
it. `colour_iff` is the exact account.
-/

namespace Teres.Rtl.Display

variable {s : State} {input : ℕ → In}

/-! ## The words delivered -/

/-- The cycles from `f` up to `k` in which the queue saw a read. -/
def reads (states : ℕ → State) (f k : ℕ) : ℕ :=
  Nat.count (fun j => f ≤ j ∧ (states j).oRead = true) k

/-- Between the cycles `f` and `t` the queue holds a word at every request, and its answers to the
reads it sees from `f` on are the words of `w` in order, each from the next cycle on. -/
structure Delivered (states : ℕ → State) (input : ℕ → In) (f t : ℕ) (w : ℕ → BitVec 32) : Prop where
  filled : ∀ k, f ≤ k → k < t → (states k).requests = true → (input k).iEmpty = false
  word : ∀ k, f ≤ k → k < t → (states k).oRead = true →
    (input (k + 1)).iData = w (reads states f k)

/-- The requests before position `v` of a frame, counted row by row. The first row has one more, for
its first word; the first word of every later row is the last request of the row before. -/
def due (v : ℕ) : ℕ :=
  if v / 800 < 33 then 0
  else if v / 800 = 33 then min 81 ((v % 800 - 38) / 8)
  else 80 * (v / 800 - 33) + 1 + min 80 ((v % 800 - 46) / 8)

/-- `due` counts `asks`, as far as the last row drawn. -/
theorem due_succ {v : ℕ} (row : v / 800 < 513) :
    due (v + 1) = due v + if asks v then 1 else 0 := by
  simp only [due, asks, decide_eq_true_eq]
  have small : v / 800 % 525 = v / 800 := Nat.mod_eq_of_lt (by omega)
  rw [small]
  rcases Nat.lt_or_ge (v % 800) 799 with inner | last
  · have div : (v + 1) / 800 = v / 800 := by omega
    have mod : (v + 1) % 800 = v % 800 + 1 := by omega
    have eight : v % 8 = v % 800 % 8 := by omega
    rw [div, mod, eight]
    generalize v % 800 = x at *
    generalize v / 800 = y at *
    split_ifs <;> omega
  · have div : (v + 1) / 800 = v / 800 + 1 := by omega
    have mod : (v + 1) % 800 = 0 := by omega
    have edge : v % 800 = 799 := by omega
    have eight : v % 8 = 7 := by omega
    rw [div, mod, eight, edge]
    split_ifs <;> omega

/-- The requests of a frame are those of its first. -/
theorem asks_frame (g v : ℕ) : asks (420000 * g + v) = asks v := by
  unfold asks
  have phase : (420000 * g + v) % 8 = v % 8 := by omega
  have col : (420000 * g + v) % 800 = v % 800 := by omega
  have row : (420000 * g + v) / 800 % 525 = v / 800 % 525 := by omega
  rw [phase, col, row]

section Run

variable (run : ∀ t, (input t).iRstN = true)
include run

/-- **The reads are the requests**, from the fall of `O_sync` to the last row drawn. -/
theorem reads_eq {g T : ℕ} (filled : ∀ k, 420000 * g + 130 ≤ k → k < T →
      (states s input k).requests = true → (input k).iEmpty = false)
    {v : ℕ} (after : 129 ≤ v) (row : v / 800 < 513) (before : 420000 * g + v ≤ T) :
    reads (states s input) (420000 * g + 130) (420000 * g + v + 1) = due v := by
  induction v, after using Nat.le_induction with
  | base => exact Nat.count_of_forall_not fun k early late => Nat.not_lt.mpr late.1 early
  | succ v after ih =>
    have answered : (asks v && !(input (420000 * g + v)).iEmpty) = asks v := by
      cases ask : asks v with
      | false => rfl
      | true =>
        have drawn : 33 ≤ v / 800 % 525 := (of_decide_eq_true ask).2.1
        have here := filled (420000 * g + v) (by omega) (by omega)
        rw [requests_eq run, asks_frame] at here
        rw [here ask]
        rfl
    have read := oRead_eq (s := s) run (420000 * g + v)
    rw [asks_frame, answered] at read
    have since : 420000 * g + 130 ≤ 420000 * g + v + 1 := by omega
    rw [reads, ← Nat.add_assoc, Nat.count_succ, ← reads, ih (by omega) (by omega), read,
      due_succ (by omega)]
    simp only [since, true_and]

/-- **The word in `data`**: the last of the words delivered. -/
theorem data_eq {f T : ℕ} {w : ℕ → BitVec 32} (words : Delivered (states s input) input (f + 1) T w)
    {t : ℕ} (since : f ≤ t) (before : t + 1 < T)
    (some : 0 < reads (states s input) (f + 1) (t + 1)) :
    (states s input (t + 2)).data = w (reads (states s input) (f + 1) (t + 1) - 1) := by
  induction t, since using Nat.le_induction with
  | base =>
    have none : reads (states s input) (f + 1) (f + 1) = 0 :=
      Nat.count_of_forall_not fun k early late => Nat.not_lt.mpr late.1 early
    omega
  | succ t since ih =>
    have filled := words.filled (t + 2) (by omega) before
    rw [data_next run t filled]
    have later : reads (states s input) (f + 1) (t + 2) =
        reads (states s input) (f + 1) (t + 1) +
          if f + 1 ≤ t + 1 ∧ (states s input (t + 1)).oRead = true then 1 else 0 :=
      Nat.count_succ _ _
    rw [later] at some ⊢
    have after : f + 1 ≤ t + 1 := by omega
    simp only [after, true_and] at some ⊢
    split_ifs at some ⊢ with read
    · rw [Nat.add_sub_cancel]
      exact words.word (t + 1) after (by omega) read
    · exact ih (by omega) some

/-- **The colour of a pixel**: its nibble of the word that the column after it belongs to. -/
theorem pixel_colour {f t x y : ℕ} (hx : x < 640) (hy : y < 480)
    (col : (states s input t).xposNext.toNat = 48 + x)
    (row : (states s input t).yposNext.toNat = 33 + y)
    (sync : SyncFell (states s input) f (t + 2)) {w : ℕ → BitVec 32}
    (words : Delivered (states s input) input f (t + 2) w) (off : 48 + x ≠ 33 + y) :
    (states s input (t + 2)).colour =
      palette (nibble (w (80 * y + (x + 1) / 8)) (x % 8)) := by
  rw [(position run t).1] at col
  rw [(position run t).2] at row
  obtain rfl := (syncFell_iff run (by omega)).mp sync
  -- the cycle before, as a position of its frame
  have at_ : t = 420000 * (t / 420000) + (800 * (33 + y) + 47 + x) + 1 := by omega
  have count :=
    reads_eq run words.filled (v := 800 * (33 + y) + 47 + x) (by omega) (by omega) (by omega)
  rw [← at_] at count
  have number : due (800 * (33 + y) + 47 + x) = 80 * y + (x + 1) / 8 + 1 := by
    have div : (800 * (33 + y) + 47 + x) / 800 = 33 + y := by omega
    have mod : (800 * (33 + y) + 47 + x) % 800 = 47 + x := by omega
    rw [due, div, mod]
    split_ifs <;> omega
  have word := data_eq run words (t := t - 1) (by omega) (by omega)
  have shift : t - 1 + 1 = t := by omega
  have shift' : t - 1 + 2 = t + 1 := by omega
  rw [shift, shift', count, number, Nat.add_sub_cancel] at word
  rw [colour_eq run t (by omega), word (Nat.succ_pos _)]
  have phase : t % 800 % 8 = x % 8 := by omega
  rw [phase]

end Run

/-! ## Which pixels are right -/

theorem palette_injective : ∀ p q : BitVec 4, palette p = palette q → p = q := by decide

/-- **When a pixel is right.** In every frame after a reset, for every sequence of words delivered
since `O_sync` fell, the pixel of column `x` and row `y` is drawn, and off the diagonal it has the
colour of nibble `x % 8` of word `80 * y + x / 8` exactly when it is not in the last column of its
word, or the next word has the same last nibble. -/
theorem colour_iff (s : State) (input : ℕ → In) (run : ∀ t, (input t).iRstN = true)
    (w : ℕ → BitVec 32) (f t x y : ℕ) (hx : x < 640) (hy : y < 480)
    (col : (states s input t).xposNext.toNat = 48 + x)
    (row : (states s input t).yposNext.toNat = 33 + y)
    (sync : SyncFell (states s input) f (t + 2))
    (words : Delivered (states s input) input f (t + 2) w) (off : 48 + x ≠ 33 + y) :
    (states s input (t + 2)).drawEnable = true ∧
      ((states s input (t + 2)).colour = palette (nibble (w (80 * y + x / 8)) (x % 8)) ↔
        (x % 8 = 7 → nibble (w (80 * y + x / 8)) 7 = nibble (w (80 * y + x / 8 + 1)) 7)) := by
  rw [pixel_colour run hx hy col row sync words off]
  have x' := (position (s := s) run t).1
  have y' := (position (s := s) run t).2
  refine ⟨?_, ?_⟩
  · rw [drawEnable_eq run, decide_eq_true_iff]
    omega
  · rcases Decidable.em (x % 8 = 7) with last | inner
    · have next : (x + 1) / 8 = x / 8 + 1 := by omega
      rw [last, next, ← Nat.add_assoc]
      exact ⟨fun same _ => (palette_injective _ _ same).symm, fun same => by rw [same rfl]⟩
    · have here : (x + 1) / 8 = x / 8 := by omega
      rw [here]
      exact ⟨fun _ last => absurd last inner, fun _ => rfl⟩

/-! ## A queue that is never empty -/

/-- Every register low. -/
def dark : State where
  xpos := 0#10
  ypos := 0#10
  xposNext := 0#10
  yposNext := 0#10
  hSync := false
  vSync := false
  oSync := false
  drawEnable := false
  drawEnableNext := false
  oRead := false
  reading := false
  data := 0#32
  colour := ⟨0, 0, 0⟩

/-- A queue that answers the reads of the first frame with the words of `w`. -/
def feed (w : ℕ → BitVec 32) : ℕ → In := fun t => ⟨true, w (due (t - 2)), false⟩

/-- Any sequence of words can be delivered to the first frame. -/
theorem feed_delivered (w : ℕ → BitVec 32) {t : ℕ} (row : t / 800 < 513) :
    Delivered (states dark (feed w)) (feed w) 130 t w where
  filled _ _ _ _ := rfl
  word k since before _ := by
    have run : ∀ t, (feed w t).iRstN = true := fun _ => rfl
    have count := reads_eq (s := dark) run (g := 0) (T := t) (v := k - 1) (fun _ _ _ _ => rfl)
      (by omega) (by omega) (by omega)
    have shift : 420000 * 0 + (k - 1) + 1 = k := by omega
    rw [shift] at count
    rw [count]
    rfl

/-- The position of column 7 in the first row, in the first frame. -/
theorem feed_position (w : ℕ → BitVec 32) :
    (states dark (feed w) 26455).xposNext.toNat = 48 + 7 ∧
      (states dark (feed w) 26455).yposNext.toNat = 33 + 0 :=
  position (fun _ => rfl) 26455

theorem feed_syncFell (w : ℕ → BitVec 32) : SyncFell (states dark (feed w)) 130 (26455 + 2) :=
  (syncFell_iff (fun _ => rfl) (by decide)).mpr rfl

/-- Two words of one last nibble. -/
def alike (k : ℕ) : BitVec 32 := if k = 0 then 0x71234567#32 else 0x70000000#32

/-- Where the next word has the same last nibble, the last column of a word is right. -/
theorem colour_iff_alike : (states dark (feed alike) (26455 + 2)).drawEnable = true ∧
    (states dark (feed alike) (26455 + 2)).colour = palette (nibble 0x71234567#32 7) := by
  obtain ⟨drawn, right⟩ := colour_iff dark (feed alike) (fun _ => rfl) alike 130 26455 7 0
    (by decide) (by decide) (feed_position alike).1 (feed_position alike).2 (feed_syncFell alike)
    (feed_delivered alike (by decide)) (by decide)
  exact ⟨drawn, right.mpr fun _ => by decide⟩

/-- A black word, then a red one. -/
def blackThenRed (k : ℕ) : BitVec 32 := if k = 0 then 0x00000000#32 else 0x11111111#32

/-- **The early word.** Column 7 of the first row belongs to the first word, which is black, and is
drawn in the colour of the second. -/
theorem early_word :
    (states dark (feed blackThenRed) 26455).xposNext.toNat = 48 + 7 ∧
      (states dark (feed blackThenRed) 26455).yposNext.toNat = 33 + 0 ∧
      SyncFell (states dark (feed blackThenRed)) 130 (26455 + 2) ∧
      Delivered (states dark (feed blackThenRed)) (feed blackThenRed) 130 (26455 + 2)
        blackThenRed ∧
      (states dark (feed blackThenRed) (26455 + 2)).colour ≠
        palette (nibble (blackThenRed (80 * 0 + 7 / 8)) (7 % 8)) := by
  have at_ := feed_position blackThenRed
  have sync := feed_syncFell blackThenRed
  have words := feed_delivered blackThenRed (t := 26455 + 2) (by decide)
  refine ⟨at_.1, at_.2, sync, words, ?_⟩
  rw [pixel_colour (fun _ => rfl) (by decide) (by decide) at_.1 at_.2 sync words (by decide)]
  decide

end Teres.Rtl.Display
