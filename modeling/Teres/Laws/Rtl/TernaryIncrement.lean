import Teres.Laws.Rtl.TernaryCompare

/-!
# The carry lookahead is the ripple carry

Incrementing passes a carry on through a plus and no other digit, which is the consensus of the
carry with the digit. The consensus of two groups next to each other passes a carry on as the two
do one behind the other (`t3Cons_group`), so the group wires hold what the groups of 2, 4, 8 and 16
trits pass on (`Groups.pair`), and each wire of `c` is driven with the ripple carry into its place
(`settled_iff`).
-/

namespace Teres.Rtl

/-- The values of a genvar. -/
theorem mem_genvars {step width i : ℕ} :
    i ∈ genvars step width ↔ ∃ m < width / step, i = step * m := by
  simp only [genvars, List.mem_map, List.mem_range, eq_comm]

/-! ## The tables -/

/-- The carry of an increment is zero or a plus. -/
def Trit.Carry (c : Trit) : Prop := c = 0b00#2 ∨ c = 0b01#2

instance (c : Trit) : Decidable c.Carry := inferInstanceAs (Decidable (_ ∨ _))

theorem t3Cons_valid : ∀ a b : Trit, a.Valid → b.Valid → (t3Cons a b).Valid := by decide

theorem t3Cons_carry : ∀ c a : Trit, c.Carry → a.Valid → (t3Cons c a).Carry := by decide

theorem t3Cons_comm : ∀ a b : Trit, a.Valid → b.Valid → t3Cons a b = t3Cons b a := by decide

/-- Two groups, one behind the other, are one group. -/
theorem t3Cons_group : ∀ c p0 p1 : Trit, c.Carry → p0.Valid → p1.Valid →
    t3Cons (t3Cons c p0) p1 = t3Cons c (t3Cons p1 p0) := by
  decide

/-- A full adder whose one operand is zero, or a plus in the place of the carry. -/
theorem t3FullAdder_carry : ∀ a c : Trit, a.Valid → c.Carry →
    t3FullAdder a 0b00#2 c = (t3ClHalfAdderS a c, t3Cons c a) ∧
      t3FullAdder a c 0b00#2 = (t3ClHalfAdderS a c, t3Cons c a) := by
  decide

/-! ## The ripple carry -/

section Ripple

variable {a : BitVec (2 * 16)}

/-- The carry into each place. -/
def ripple (a : BitVec (2 * 16)) : ℕ → Trit
  | 0 => 0b01#2
  | i + 1 => t3Cons (ripple a i) (tritOf a i)

theorem ripple_carry (valid : ValidWord a) : ∀ i ≤ 16, (ripple a i).Carry
  | 0, _ => .inr rfl
  | i + 1, hi => t3Cons_carry _ _ (ripple_carry valid i (Nat.le_of_succ_le hi)) (valid i hi)

/-- One is a plus in the lowest place. -/
theorem tritOf_one : ∀ i < 16, tritOf (n := 16) 1#32 i = if i = 0 then 0b01#2 else 0b00#2 := by
  decide

/-- A stage of the addition of one. -/
theorem addition_stage (valid : ValidWord a) : ∀ i < 16,
    t3FullAdder (tritOf a i) (tritOf (n := 16) 1#32 i) (t3AdditionCarry a 1#32 i) =
      (t3ClHalfAdderS (tritOf a i) (ripple a i), ripple a (i + 1))
  | 0, hi => (t3FullAdder_carry _ _ (valid 0 hi) (ripple_carry valid 0 (Nat.zero_le 16))).2
  | i + 1, hi => by
    have below := addition_stage valid i (Nat.lt_of_succ_lt hi)
    have carry : t3AdditionCarry a 1#32 (i + 1) = ripple a (i + 1) := congrArg Prod.snd below
    rw [carry, tritOf_one _ hi, if_neg (Nat.succ_ne_zero i)]
    exact (t3FullAdder_carry _ _ (valid _ hi) (ripple_carry valid _ hi.le)).1

/-- Behind the lowest place the ripple carry is that of the addition of one. -/
theorem addition_carry (valid : ValidWord a) {i : ℕ} (hi : i < 16) :
    t3AdditionCarry a 1#32 (i + 1) = ripple a (i + 1) :=
  congrArg Prod.snd (addition_stage valid i hi)

end Ripple

/-! ## Groups -/

section Groups

variable {a : BitVec (2 * 16)}

/-- What a group of `2 ^ l` trits passes on. -/
def group (a : BitVec (2 * 16)) : ℕ → ℕ → Trit
  | 0, m => tritOf a m
  | l + 1, m => t3Cons (group a l (2 * m + 1)) (group a l (2 * m))

/-- The groups of `len` trits pass the carry on as their trits do. -/
structure Groups (a : BitVec (2 * 16)) (len k : ℕ) (g : ℕ → Trit) : Prop where
  all : len * k = 16
  valid : ∀ m < k, (g m).Valid
  passes : ∀ m < k, ripple a (len * m + len) = t3Cons (ripple a (len * m)) (g m)

/-- **Two groups next to each other are one group.** -/
theorem Groups.pair (word : ValidWord a) {len k : ℕ} {g g' : ℕ → Trit} (h : Groups a len (2 * k) g)
    (joins : ∀ m < k, g' m = t3Cons (g (2 * m + 1)) (g (2 * m))) : Groups a (2 * len) k g' where
  all := by
    rw [← h.all]
    ring
  valid m hm := by
    rw [joins m hm]
    exact t3Cons_valid _ _ (h.valid _ (by omega)) (h.valid _ (by omega))
  passes m hm := by
    have low := h.passes (2 * m) (by omega)
    have high := h.passes (2 * m + 1) (by omega)
    have start : len * (2 * m) = 2 * len * m := by ring
    have next : len * (2 * m + 1) = 2 * len * m + len := by ring
    have inside : 2 * len * m ≤ 16 := by
      rw [← h.all, ← start]
      exact Nat.mul_le_mul_left len (by omega)
    rw [start] at low
    rw [next] at high
    rw [two_mul len, ← Nat.add_assoc, ← two_mul, high, low, joins m hm]
    exact t3Cons_group _ _ _ (ripple_carry word _ inside) (h.valid _ (by omega))
      (h.valid _ (by omega))

theorem group_zero (word : ValidWord a) : Groups a 1 16 (group a 0) where
  all := rfl
  valid := word
  passes m _ := by
    rw [Nat.one_mul]
    rfl

theorem group_one (word : ValidWord a) : Groups a 2 8 (group a 1) :=
  (group_zero word).pair (k := 8) word fun _ _ => rfl

theorem group_two (word : ValidWord a) : Groups a 4 4 (group a 2) :=
  (group_one word).pair (k := 4) word fun _ _ => rfl

theorem group_three (word : ValidWord a) : Groups a 8 2 (group a 3) :=
  (group_two word).pair (k := 2) word fun _ _ => rfl

theorem group_four (word : ValidWord a) : Groups a 16 1 (group a 4) :=
  (group_three word).pair (k := 1) word fun _ _ => rfl

end Groups

/-! ## The wires -/

namespace IncrementWires

/-- The part-select of a trit. -/
theorem pairAt_trit {n : ℕ} (v : BitVec (2 * n)) {i k : ℕ} (place : i = 2 * k) :
    pairAt v i = tritOf v k := by
  rw [place]
  rfl

/-- What the instances of one loop drive: the groups below are of `len` trits. -/
structure Loop (len k n n' : ℕ) (c : BitVec (2 * 16)) (g : BitVec (2 * n)) (g' : BitVec (2 * n')) :
    Prop where
  c : ∀ m < k, tritOf c (2 * len * m + len) = t3Cons (tritOf c (2 * len * m)) (tritOf g (2 * m))
  g : ∀ m < k, tritOf g' m = t3Cons (tritOf g (2 * m + 1)) (tritOf g (2 * m))

/-- What settled wires carry, trit by trit. -/
structure Trits (a : BitVec (2 * 16)) (w : IncrementWires) : Prop where
  c : tritOf (n := 16) w.c 0 = 0b01#2
  p : ∀ m < 16, tritOf (n := 16) w.p m = tritOf a m
  ux1 : Loop 1 8 16 8 w.c w.p w.p00
  ux2 : Loop 2 4 8 4 w.c w.p00 w.p01
  ux3 : Loop 4 2 4 2 w.c w.p01 w.p02
  ux4 : Loop 8 1 2 1 w.c w.p02 w.p03
  out : ∀ m < 16, tritOf (n := 16) w.out m =
    t3ClHalfAdderS (tritOf a m) (tritOf (n := 16) w.c m)
  carry : w.carry = t3Cons w.p03 (tritOf (n := 16) w.c 0)

variable {a : BitVec (2 * 16)} {w : IncrementWires}

/-- The instances of a loop, by their indices in the source. -/
theorem loop_iff (width k n' : ℕ) {len n : ℕ} {c : BitVec (2 * 16)} {g : BitVec (2 * n)}
    {g' : BitVec (2 * n')} {x : ℕ → Trit × Trit} (instances : ∀ m,
      x (4 * len * m) = t3ClX (tritOf g (2 * m)) (tritOf g (2 * m + 1)) (tritOf c (2 * len * m)))
    (count : width / (4 * len) = k) (pos : 0 < len) :
    ((∀ i ∈ genvars (4 * len) width, pairAt c (i + 2 * len) = (x i).1) ∧
      ∀ i ∈ genvars (4 * len) width, pairAt g' (i / (2 * len)) = (x i).2) ↔
    Loop len k n n' c g g' := by
  have place (m : ℕ) : pairAt c (4 * len * m + 2 * len) = tritOf c (2 * len * m + len) :=
    pairAt_trit c (by ring)
  have group (m : ℕ) : pairAt g' (4 * len * m / (2 * len)) = tritOf g' m := by
    apply pairAt_trit
    have double : 4 * len * m = 2 * len * (2 * m) := by ring
    rw [double, Nat.mul_div_cancel_left _ (by omega)]
  constructor
  · rintro ⟨carries, groups⟩
    refine ⟨fun m hm => ?_, fun m hm => ?_⟩
    · rw [← place, carries _ (mem_genvars.mpr ⟨m, count ▸ hm, rfl⟩), instances]
      rfl
    · rw [← group, groups _ (mem_genvars.mpr ⟨m, count ▸ hm, rfl⟩), instances]
      rfl
  · intro loop
    refine ⟨fun i hi => ?_, fun i hi => ?_⟩
    · obtain ⟨m, hm, rfl⟩ := mem_genvars.mp hi
      rw [place, loop.c m (count ▸ hm), instances]
      rfl
    · obtain ⟨m, hm, rfl⟩ := mem_genvars.mp hi
      rw [group, loop.g m (count ▸ hm), instances]
      rfl

theorem ux1_trits (m : ℕ) : w.ux1 (4 * 1 * m) = t3ClX (tritOf (n := 16) w.p (2 * m))
    (tritOf (n := 16) w.p (2 * m + 1)) (tritOf (n := 16) w.c (2 * 1 * m)) := by
  unfold ux1
  rw [pairAt_trit (n := 16) w.p (k := 2 * m) (by omega),
    pairAt_trit (n := 16) w.p (k := 2 * m + 1) (by omega),
    pairAt_trit (n := 16) w.c (k := 2 * 1 * m) (by omega)]

theorem ux2_trits (m : ℕ) : w.ux2 (4 * 2 * m) = t3ClX (tritOf (n := 8) w.p00 (2 * m))
    (tritOf (n := 8) w.p00 (2 * m + 1)) (tritOf (n := 16) w.c (2 * 2 * m)) := by
  unfold ux2
  rw [pairAt_trit (n := 8) w.p00 (k := 2 * m) (by omega),
    pairAt_trit (n := 8) w.p00 (k := 2 * m + 1) (by omega),
    pairAt_trit (n := 16) w.c (k := 2 * 2 * m) (by omega)]

theorem ux3_trits (m : ℕ) : w.ux3 (4 * 4 * m) = t3ClX (tritOf (n := 4) w.p01 (2 * m))
    (tritOf (n := 4) w.p01 (2 * m + 1)) (tritOf (n := 16) w.c (2 * 4 * m)) := by
  unfold ux3
  rw [pairAt_trit (n := 4) w.p01 (k := 2 * m) (by omega),
    pairAt_trit (n := 4) w.p01 (k := 2 * m + 1) (by omega),
    pairAt_trit (n := 16) w.c (k := 2 * 4 * m) (by omega)]

theorem ux4_trits (m : ℕ) : w.ux4 (4 * 8 * m) = t3ClX (tritOf (n := 2) w.p02 (2 * m))
    (tritOf (n := 2) w.p02 (2 * m + 1)) (tritOf (n := 16) w.c (2 * 8 * m)) := by
  unfold ux4
  rw [pairAt_trit (n := 2) w.p02 (k := 2 * m) (by omega),
    pairAt_trit (n := 2) w.p02 (k := 2 * m + 1) (by omega),
    pairAt_trit (n := 16) w.c (k := 2 * 8 * m) (by omega)]

/-- What drives `c`, loop by loop. -/
theorem drivers_iff : (∀ d ∈ w.drivers, pairAt w.c d.1 = d.2) ↔
    tritOf (n := 16) w.c 0 = 0b01#2 ∧
      (∀ i ∈ genvars 4 32, pairAt w.c (i + 2) = (w.ux1 i).1) ∧
      (∀ i ∈ genvars 8 32, pairAt w.c (i + 4) = (w.ux2 i).1) ∧
      (∀ i ∈ genvars 16 32, pairAt w.c (i + 8) = (w.ux3 i).1) ∧
      ∀ i ∈ genvars 32 32, pairAt w.c (i + 16) = (w.ux4 i).1 := by
  simp only [drivers, List.mem_append, or_imp, forall_and, List.forall_mem_map,
    List.forall_mem_singleton, and_assoc]
  rfl

/-- **Settled wires, trit by trit.** -/
theorem settled_trits : w.Settled a ↔ w.Trits a := by
  have loop1 : ((∀ i ∈ genvars 4 32, pairAt w.c (i + 2) = (w.ux1 i).1) ∧
      ∀ i ∈ genvars 4 32, pairAt w.p00 (i / 2) = (w.ux1 i).2) ↔ Loop 1 8 16 8 w.c w.p w.p00 :=
    loop_iff 32 8 8 ux1_trits rfl (by decide)
  have loop2 : ((∀ i ∈ genvars 8 32, pairAt w.c (i + 4) = (w.ux2 i).1) ∧
      ∀ i ∈ genvars 8 32, pairAt w.p01 (i / 4) = (w.ux2 i).2) ↔ Loop 2 4 8 4 w.c w.p00 w.p01 :=
    loop_iff 32 4 4 ux2_trits rfl (by decide)
  have loop3 : ((∀ i ∈ genvars 16 32, pairAt w.c (i + 8) = (w.ux3 i).1) ∧
      ∀ i ∈ genvars 16 32, pairAt w.p02 (i / 8) = (w.ux3 i).2) ↔ Loop 4 2 4 2 w.c w.p01 w.p02 :=
    loop_iff 32 2 2 ux3_trits rfl (by decide)
  have loop4 : ((∀ i ∈ genvars 32 32, pairAt w.c (i + 16) = (w.ux4 i).1) ∧
      ∀ i ∈ genvars 32 32, pairAt w.p03 (i / 16) = (w.ux4 i).2) ↔ Loop 8 1 2 1 w.c w.p02 w.p03 :=
    loop_iff 32 1 1 ux4_trits rfl (by decide)
  have each {P : ℕ → Prop} : (∀ i ∈ genvars 2 32, P i) ↔ ∀ m < 16, P (2 * m) := by
    constructor
    · intro all m hm
      exact all _ (mem_genvars.mpr ⟨m, hm, rfl⟩)
    · intro all i hi
      obtain ⟨m, hm, rfl⟩ := mem_genvars.mp hi
      exact all m hm
  constructor
  · intro h
    obtain ⟨start, c1, c2, c3, c4⟩ := drivers_iff.mp h.c
    exact ⟨start, each.mp h.p, loop1.mp ⟨c1, h.p00⟩, loop2.mp ⟨c2, h.p01⟩, loop3.mp ⟨c3, h.p02⟩,
      loop4.mp ⟨c4, h.p03⟩, each.mp h.out, h.carry⟩
  · intro h
    obtain ⟨c1, g1⟩ := loop1.mpr h.ux1
    obtain ⟨c2, g2⟩ := loop2.mpr h.ux2
    obtain ⟨c3, g3⟩ := loop3.mpr h.ux3
    obtain ⟨c4, g4⟩ := loop4.mpr h.ux4
    exact ⟨drivers_iff.mpr ⟨h.c, c1, c2, c3, c4⟩, each.mpr h.p, g1, g2, g3, g4, each.mpr h.out,
      h.carry⟩

/-! ## What they carry -/

section Carried

/-- Where every second place has its ripple carry, a loop drives those between. -/
theorem Loop.finer {len k n n' : ℕ} {c : BitVec (2 * 16)} {g : BitVec (2 * n)}
    {g' : BitVec (2 * n')} (loop : Loop len k n n' c g g')
    (groups : Groups a len (2 * k) (tritOf g))
    (coarse : ∀ m < k, tritOf c (2 * len * m) = ripple a (2 * len * m)) :
    ∀ m < 2 * k, tritOf c (len * m) = ripple a (len * m) := by
  intro m hm
  rcases Nat.even_or_odd' m with ⟨j, rfl | rfl⟩
  · have place : len * (2 * j) = 2 * len * j := by ring
    rw [place]
    exact coarse j (by omega)
  · have place : len * (2 * j) = 2 * len * j := by ring
    have next : len * (2 * j + 1) = 2 * len * j + len := by ring
    have passes := groups.passes (2 * j) (by omega)
    rw [place] at passes
    rw [next, loop.c j (by omega), passes, coarse j (by omega)]

/-- **Every carry wire holds the ripple carry**, and the last group wire what the word passes on. -/
theorem Trits.carries (h : w.Trits a) (word : ValidWord a) :
    (∀ i < 16, tritOf (n := 16) w.c i = ripple a i) ∧ Groups a 16 1 (tritOf (n := 1) w.p03) := by
  have g0 : Groups a 1 16 (tritOf (n := 16) w.p) := by
    refine ⟨rfl, fun m hm => h.p m hm ▸ word m hm, fun m hm => ?_⟩
    rw [h.p m hm, Nat.one_mul]
    rfl
  have g1 := g0.pair (k := 8) word h.ux1.g
  have g2 := g1.pair (k := 4) word h.ux2.g
  have g3 := g2.pair (k := 2) word h.ux3.g
  have g4 := g3.pair (k := 1) word h.ux4.g
  have start : ∀ m < 1, tritOf (n := 16) w.c (16 * m) = ripple a (16 * m) := by
    intro m hm
    obtain rfl := Nat.lt_one_iff.mp hm
    exact h.c
  have all := h.ux1.finer (k := 8) g0 (h.ux2.finer (k := 4) g1 (h.ux3.finer (k := 2) g2
    (h.ux4.finer (k := 1) g3 start)))
  refine ⟨fun i hi => ?_, g4⟩
  rw [← Nat.one_mul i]
  exact all i hi

/-- The wires that settle. -/
def settled (a : BitVec (2 * 16)) : IncrementWires where
  c := ofTrits 16 (ripple a)
  p := a
  p00 := ofTrits 8 (group a 1)
  p01 := ofTrits 4 (group a 2)
  p02 := ofTrits 2 (group a 3)
  p03 := ofTrits 1 (group a 4)
  out := (t3Addition a 1#32).1
  carry := (t3Addition a 1#32).2

/-- The sum of an addition of one, trit by trit. -/
theorem addition_out (word : ValidWord a) {i : ℕ} (hi : i < 16) :
    tritOf (n := 16) (t3Addition a 1#32).1 i = t3ClHalfAdderS (tritOf a i) (ripple a i) := by
  rw [t3Addition, tritOf_ofTrits _ hi, addition_stage word i hi]

/-- The carry out of the word. -/
theorem carry_out (word : ValidWord a) {g : ℕ → Trit} (groups : Groups a 16 1 g) :
    t3Cons (g 0) 0b01#2 = (t3Addition a 1#32).2 := by
  have passes : ripple a 16 = t3Cons 0b01#2 (g 0) := groups.passes 0 Nat.one_pos
  have carry : (t3Addition a 1#32).2 = ripple a 16 := addition_carry word (by decide)
  rw [carry, passes]
  exact t3Cons_comm _ _ (groups.valid 0 Nat.one_pos) (by decide)

/-- A loop of the wires that settle. -/
theorem settled_loop {l len k n n' : ℕ} (groups : Groups a len (2 * k) (group a l))
    {g : BitVec (2 * n)} (below : ∀ m < 2 * k, tritOf g m = group a l m)
    {g' : BitVec (2 * n')} (above : ∀ m < k, tritOf g' m = group a (l + 1) m) :
    Loop len k n n' (settled a).c g g' where
  c m hm := by
    have passes := groups.passes (2 * m) (by omega)
    have place : len * (2 * m) = 2 * len * m := by ring
    have pos : 0 < len := by
      refine Nat.pos_of_ne_zero fun zero => ?_
      have all := groups.all
      rw [zero, Nat.zero_mul] at all
      exact absurd all (by decide)
    have inside : len * (2 * m + 1) < len * (2 * k) := Nat.mul_lt_mul_of_pos_left (by omega) pos
    rw [groups.all, Nat.mul_add, Nat.mul_one, place] at inside
    rw [place] at passes
    rw [settled, tritOf_ofTrits _ inside, tritOf_ofTrits _ (by omega), below _ (by omega), passes]
  g m hm := by
    rw [above m hm, below _ (by omega), below _ (by omega)]
    rfl

theorem settled_holds (word : ValidWord a) : (settled a).Trits a where
  c := tritOf_ofTrits (ripple a) (Nat.zero_lt_succ 15)
  p _ _ := rfl
  ux1 := settled_loop (l := 0) (group_zero word) (fun _ _ => rfl) fun _ => tritOf_ofTrits _
  ux2 := settled_loop (group_one word) (fun _ => tritOf_ofTrits _) fun _ => tritOf_ofTrits _
  ux3 := settled_loop (group_two word) (fun _ => tritOf_ofTrits _) fun _ => tritOf_ofTrits _
  ux4 := settled_loop (group_three word) (fun _ => tritOf_ofTrits _) fun _ => tritOf_ofTrits _
  out m hm := by
    rw [settled, addition_out word hm, tritOf_ofTrits _ hm]
  carry := by
    have g4 : tritOf (n := 1) (settled a).p03 0 = group a 4 0 := tritOf_ofTrits _ Nat.one_pos
    have whole : tritOf (n := 1) (settled a).p03 0 = (settled a).p03 := BitVec.extractLsb'_eq_self
    have start : tritOf (n := 16) (settled a).c 0 = 0b01#2 :=
      tritOf_ofTrits (ripple a) (Nat.zero_lt_succ 15)
    rw [start, ← whole, g4, carry_out word (group_four word)]
    rfl

/-- The group wires above a loop are those of the groups below it. -/
theorem Loop.groups {l len k n n' : ℕ} {c : BitVec (2 * 16)} {g : BitVec (2 * n)}
    {g' : BitVec (2 * n')} (loop : Loop len k n n' c g g')
    (below : ∀ m < 2 * k, tritOf g m = group a l m) : ∀ m < k, tritOf g' m = group a (l + 1) m := by
  intro m hm
  rw [loop.g m hm, below _ (by omega), below _ (by omega)]
  rfl

/-- **The wires settle in one way only.** -/
theorem settled_iff (word : ValidWord a) : w.Settled a ↔ w = settled a := by
  rw [settled_trits]
  constructor
  · intro h
    obtain ⟨carries, groups⟩ := h.carries word
    have g1 := h.ux1.groups (k := 8) (l := 0) h.p
    have g2 := h.ux2.groups (k := 4) g1
    have g3 := h.ux3.groups (k := 2) g2
    have g4 := h.ux4.groups (k := 1) g3
    have word_ {n : ℕ} {v : BitVec (2 * n)} {t : ℕ → Trit} (same : ∀ i < n, tritOf v i = t i) :
        v = ofTrits n t := eq_of_trits fun i hi => (same i hi).trans (tritOf_ofTrits t hi).symm
    have out : w.out = (t3Addition a 1#32).1 := eq_of_trits (n := 16) fun i hi => by
      rw [h.out i hi, addition_out word hi, carries i hi]
    have carry : w.carry = (t3Addition a 1#32).2 := by
      have whole : tritOf (n := 1) w.p03 0 = w.p03 := BitVec.extractLsb'_eq_self
      rw [h.carry, h.c, ← whole, carry_out word groups]
    have c : w.c = ofTrits 16 (ripple a) := word_ carries
    have p : w.p = a := eq_of_trits (n := 16) h.p
    have p00 : w.p00 = ofTrits 8 (group a 1) := word_ g1
    have p01 : w.p01 = ofTrits 4 (group a 2) := word_ g2
    have p02 : w.p02 = ofTrits 2 (group a 3) := word_ g3
    have p03 : w.p03 = ofTrits 1 (group a 4) := word_ g4
    cases w
    simp only [settled, mk.injEq]
    exact ⟨c, p, p00, p01, p02, p03, out, carry⟩
  · rintro rfl
    exact settled_holds word

end Carried

end IncrementWires

open IncrementWires

/-- **The lookahead increment is the addition of one**: each trit of the carry wires is driven once,
the wires settle in one way only, every carry is the ripple carry into its place, and sum and carry
are those of the ripple adder. -/
theorem t3Increment_exact (a : BitVec (2 * 16)) (ha : ValidWord a) :
    (∀ w : IncrementWires, (w.drivers.map Prod.fst).Perm (genvars 2 32)) ∧
      ∃ w : IncrementWires, (∀ w' : IncrementWires, w'.Settled a ↔ w' = w) ∧
        (w.out, w.carry) = t3Addition a 1#32 ∧
        wordValue (n := 16) w.out + 3 ^ 16 * w.carry.value = wordValue a + 1 ∧
        pairAt w.c 0 = 0b01#2 ∧ ∀ i, 0 < i → i < 16 →
          pairAt w.c (2 * i) = t3AdditionCarry a 1#32 i := by
  refine ⟨fun w => ?_, settled a, fun w => settled_iff ha, rfl, ?_, ?_, fun i pos hi => ?_⟩
  · have places : w.drivers.map Prod.fst =
        [0, 2, 6, 10, 14, 18, 22, 26, 30, 4, 12, 20, 28, 8, 24, 16] := rfl
    rw [places]
    decide
  · have one : ValidWord (n := 16) 1#32 := by decide
    have value : wordValue (n := 16) 1#32 = 1 := by decide
    rw [← value]
    exact t3Addition_value ha one
  · exact (settled_holds ha).c
  · obtain ⟨j, rfl⟩ := Nat.exists_eq_add_of_le' pos
    rw [addition_carry ha (Nat.lt_of_succ_lt hi)]
    exact tritOf_ofTrits (ripple a) hi

/-- Incrementing the word of fifteen pluses. -/
theorem t3Increment_exact_pluses : ValidWord (n := 16) 0x15555555#32 ∧
    ∃ w : IncrementWires, w.Settled 0x15555555#32 ∧
      wordValue (n := 16) w.out + 3 ^ 16 * w.carry.value =
        wordValue (n := 16) 0x15555555#32 + 1 := by
  have word : ValidWord (n := 16) 0x15555555#32 := by decide
  obtain ⟨_, w, only, _, value, _⟩ := t3Increment_exact 0x15555555#32 word
  exact ⟨word, w, (only w).mpr rfl, value⟩

end Teres.Rtl
