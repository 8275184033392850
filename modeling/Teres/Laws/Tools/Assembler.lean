import Mathlib.Data.List.Forall2
import Mathlib.Data.List.TakeWhile
import Teres.Base.Packed
import Teres.Laws.Tools.Cod5asm
import Teres.Laws.Tools.Mnemonics

/-!
# The image that the assembler prints

The trytes placed so far are a list of bytes, and `Packs` says what the assembler holds of them: the
full words as lines, and the word under construction. A tryte of at most four trits is one byte
more (`Packs.put`), at each of the four alignments. So every kind of line extends the list by its
own bytes, and the printed words are the list's (`image_layout`).
-/

namespace Teres.Tools.Cod5asm

open Packed (word)

/-! ## Trytes in words -/

/-- **What the assembler holds** of the bytes placed so far. -/
structure Packs (o : Out) (img : List ℕ) : Prop where
  small : ∀ b ∈ img, b < 256
  offset : o.offset = img.length
  val : o.val.toNat = word 256 4 img (img.length / 4)
  lines : o.lines =
    (List.range (img.length / 4)).map fun k => (4 * k, BitVec.ofNat 32 (word 256 4 img k))

theorem Packs.start : Packs .start [] where
  small := by simp
  offset := rfl
  val := rfl
  lines := rfl

/-- A byte comes in above those that are there. -/
theorem toNat_or_shift {a v : BitVec 32} {s : ℕ} (low : a.toNat < 2 ^ s)
    (fits : v.toNat * 2 ^ s < 2 ^ 32) : (a ||| v <<< s).toNat = a.toNat + 2 ^ s * v.toNat := by
  have shifted : v.toNat <<< s = v.toNat * 2 ^ s := Nat.shiftLeft_eq ..
  rw [BitVec.toNat_or, BitVec.toNat_shiftLeft, shifted, Nat.mod_eq_of_lt fits, ← shifted,
    Nat.or_comm, ← Nat.shiftLeft_add_eq_or_of_lt low, shifted, Nat.add_comm, Nat.mul_comm]

/-- **One tryte more**, at each of the four alignments. -/
theorem Packs.put {o : Out} {img : List ℕ} (packs : Packs o img) {v : BitVec 32}
    (byte : v.toNat < 256) : Packs (o.put v) (img ++ [v.toNat]) := by
  have pending := @Packed.word_lt 256 4 img packs.small (by decide) (by decide)
  have grown := @Packed.word_concat 256 4 img v.toNat (by decide)
  have below : img.length % 4 < 4 := Nat.mod_lt _ (by decide)
  have division := Nat.div_add_mod img.length 4
  rw [← packs.val] at pending grown
  have bytes : ∀ b ∈ img ++ [v.toNat], b < 256 := by
    intro b mem
    rcases List.mem_append.mp mem with old | new
    · exact packs.small b old
    · rw [List.mem_singleton.mp new]
      exact byte
  have stay (k : ℕ) (full : k < img.length / 4) :
      word 256 4 (img ++ [v.toNat]) k = word 256 4 img k :=
    Packed.word_append (by omega) _
  have old : o.lines = (List.range (img.length / 4)).map fun k =>
      (4 * k, BitVec.ofNat 32 (word 256 4 (img ++ [v.toNat]) k)) := by
    rw [packs.lines]
    refine List.map_congr_left fun k mem => ?_
    rw [stay k (List.mem_range.mp mem)]
  have going (room : img.length % 4 < 3) {val : BitVec 32}
      (value : val.toNat = word 256 4 (img ++ [v.toNat]) (img.length / 4)) :
      Packs ⟨img.length + 1, val, o.lines, o.emitted ++ [v]⟩ (img ++ [v.toNat]) := by
    have same : (img ++ [v.toNat]).length / 4 = img.length / 4 := by
      rw [List.length_append, List.length_singleton]
      omega
    refine ⟨bytes, by simp, ?_, ?_⟩
    · rw [same]
      exact value
    · rw [same]
      exact old
  unfold Out.put
  rw [packs.offset]
  have alignment : img.length % 4 = 0 ∨ img.length % 4 = 1 ∨ img.length % 4 = 2 ∨
      img.length % 4 = 3 := by omega
  rcases alignment with zero | one | two | three
  · rw [zero] at pending grown
    rw [if_pos zero]
    refine going (by omega) ?_
    rw [grown]
    omega
  · rw [one] at pending grown
    rw [if_neg (by omega), if_pos one]
    refine going (by omega) ?_
    rw [grown]
    exact toNat_or_shift pending (by omega)
  · rw [two] at pending grown
    rw [if_neg (by omega), if_neg (by omega), if_pos two]
    refine going (by omega) ?_
    rw [grown]
    exact toNat_or_shift pending (by omega)
  · -- the word is full, and is printed
    have next : (img.length + 1) / 4 = img.length / 4 + 1 := by omega
    have start : img.length - img.length % 4 = 4 * (img.length / 4) := by omega
    have full : (o.val ||| v <<< 24).toNat =
        word 256 4 (img ++ [v.toNat]) (img.length / 4) := by
      rw [three] at pending grown
      rw [grown]
      exact toNat_or_shift pending (by omega)
    rw [if_neg (by omega), if_neg (by omega), if_neg (by omega)]
    refine ⟨bytes, by simp, ?_, ?_⟩
    · rw [List.length_append, List.length_singleton, next]
      exact (Packed.word_past (by simp; omega)).symm
    · rw [List.length_append, List.length_singleton, next, List.range_succ, List.map_append,
        ← old, List.map_singleton, ← full, BitVec.ofNat_toNat, BitVec.setWidth_eq, start]

/-- **The words that are printed**: one for each four bytes, the last one filled up with zeros. -/
theorem Packs.flush {o : Out} {img : List ℕ} (packs : Packs o img) : o.flush =
    (List.range ((img.length + 3) / 4)).map fun k =>
      (4 * k, BitVec.ofNat 32 (word 256 4 img k)) := by
  unfold Out.flush
  rw [packs.offset]
  by_cases whole : img.length % 4 = 0
  · have same : (img.length + 3) / 4 = img.length / 4 := by omega
    rw [if_pos whole, same]
    exact packs.lines
  · have next : (img.length + 3) / 4 = img.length / 4 + 1 := by omega
    have start : img.length - img.length % 4 = 4 * (img.length / 4) := by omega
    rw [if_neg whole, next, List.range_succ, List.map_append, packs.lines, List.map_singleton,
      ← packs.val, BitVec.ofNat_toNat, BitVec.setWidth_eq, start]

/-! ## Constants -/

/-- The two bits of a trit. -/
def tritCode (c : Char) : ℕ := if c = '+' then 1 else if c = '-' then 2 else 0

/-- The code of trits, the most significant first. -/
def code (ts : List Char) : ℕ := ts.foldl (fun v c => 4 * v + tritCode c) 0

/-- A constant: one to four trits. -/
structure Constant (ts : List Char) : Prop where
  all : ∀ c ∈ ts, IsTrit c
  some : 1 ≤ ts.length
  four : ts.length ≤ 4

/-- What may stand behind the last constant: white space, and a comment behind white space. -/
inductive Tail : List Char → Prop where
  | blank {gap : List Char} : gap.all isspace = true → Tail gap
  | comment {g : Char} {gap rest : List Char} : isspace g = true → gap.all isspace = true →
      Tail (g :: gap ++ ';' :: rest)

/-- **Constants separated by commas**, with white space between them. -/
inductive Constants : List Char → List (List Char) → Prop where
  | last {gap ts tail : List Char} : gap.all isspace = true → Constant ts → Tail tail →
      Constants (gap ++ (ts ++ tail)) [ts]
  | more {gap ts gap' s : List Char} {cs : List (List Char)} : gap.all isspace = true →
      Constant ts → gap'.all isspace = true → Constants s cs →
      Constants (gap ++ (ts ++ (gap' ++ ',' :: s))) (ts :: cs)

theorem trits_cons {c : Char} (trit : IsTrit c) (s : List Char) (v : BitVec 32) :
    trits (c :: s) v = trits s (v <<< 2 ||| BitVec.ofNat 32 (tritCode c)) := by
  obtain rfl | rfl | rfl := trit <;> rfl

theorem tritCode_lt (c : Char) : tritCode c < 4 := by
  unfold tritCode
  split_ifs <;> decide

/-- **Trits are shifted in**, as long as none is shifted out. -/
theorem trits_append (r : List Char) {ts : List Char} : ∀ {v : BitVec 32}, (∀ c ∈ ts, IsTrit c) →
    (v.toNat + 1) * 4 ^ ts.length ≤ 2 ^ 32 → ∃ w, trits (ts ++ r) v = trits r w ∧
      w.toNat = ts.foldl (fun v c => 4 * v + tritCode c) v.toNat ∧
      w.toNat + 1 ≤ (v.toNat + 1) * 4 ^ ts.length := by
  induction ts with
  | nil =>
    intro v _ _
    exact ⟨v, rfl, rfl, by simp⟩
  | cons c ts ih =>
    intro v all room
    have trit := all c List.mem_cons_self
    have small : (BitVec.ofNat 32 (tritCode c)).toNat = tritCode c :=
      Nat.mod_eq_of_lt (Nat.lt_trans (tritCode_lt c) (by decide))
    have four := tritCode_lt c
    have split : (v.toNat + 1) * 4 ^ (c :: ts).length = (v.toNat + 1) * 4 * 4 ^ ts.length := by
      rw [List.length_cons, pow_succ]
      ring
    rw [split] at room
    have fits : (v.toNat + 1) * 4 ≤ 2 ^ 32 :=
      (Nat.le_mul_of_pos_right _ (Nat.pow_pos (by decide))).trans room
    have shifted := toNat_shift_or (t := v) (d := BitVec.ofNat 32 (tritCode c)) fits
      (by rw [small]; exact four)
    rw [small, Nat.mul_comm] at shifted
    have grown : (v <<< 2 ||| BitVec.ofNat 32 (tritCode c)).toNat + 1 ≤ (v.toNat + 1) * 4 := by
      rw [shifted]
      omega
    have later : ((v <<< 2 ||| BitVec.ofNat 32 (tritCode c)).toNat + 1) * 4 ^ ts.length ≤
        (v.toNat + 1) * 4 * 4 ^ ts.length := Nat.mul_le_mul_right _ grown
    obtain ⟨w, eq, value, bound⟩ :=
      ih (fun d mem => all d (List.mem_cons_of_mem c mem)) (later.trans room)
    refine ⟨w, ?_, ?_, ?_⟩
    · rw [List.cons_append, trits_cons trit, eq]
    · rw [value, shifted, List.foldl_cons]
    · rw [split]
      exact bound.trans later

/-- A constant is one byte. -/
theorem trits_constant {ts : List Char} (constant : Constant ts) (r : List Char) :
    ∃ w, trits (ts ++ r) 0#32 = trits r w ∧ w.toNat = code ts ∧ w.toNat < 256 := by
  have bound : 4 ^ ts.length ≤ 4 ^ 4 := Nat.pow_le_pow_right (by decide) constant.four
  have zero : (0#32).toNat = 0 := rfl
  obtain ⟨w, eq, value, small⟩ := trits_append (v := 0#32) r constant.all (by
    rw [zero]
    omega)
  rw [zero] at small
  exact ⟨w, eq, value, by omega⟩

theorem isspace_alone {c : Char} (space : isspace c = true) :
    c ≠ '+' ∧ c ≠ '-' ∧ c ≠ '0' ∧ c ≠ ',' := by
  refine ⟨?_, ?_, ?_, ?_⟩ <;> (rintro rfl; cases space)

theorem trits_space {c : Char} (space : isspace c = true) (s : List Char) (v : BitVec 32) :
    trits (c :: s) v = some (v, skipSpace (c :: s)) := by
  obtain ⟨plus, minus, zero, comma⟩ := isspace_alone space
  rw [trits, if_neg plus, if_neg minus, if_neg zero, if_neg comma, if_pos space]

theorem skipSpace_all {gap : List Char} (all : gap.all isspace = true) : skipSpace gap = [] := by
  unfold skipSpace
  rw [List.dropWhile_eq_nil_iff]
  exact List.all_eq_true.mp all

/-- Behind the last constant the tryte ends, and there is no comma. -/
theorem trits_tail {tail : List Char} (ends : Tail tail) :
    ∃ r, (∀ v, trits tail v = some (v, r)) ∧ r.head? ≠ some ',' := by
  cases ends with
  | blank all =>
    refine ⟨[], fun v => ?_, by simp⟩
    cases tail with
    | nil => rfl
    | cons g gap =>
      have space : isspace g = true := by
        rw [List.all_cons, Bool.and_eq_true] at all
        exact all.1
      rw [trits_space space, skipSpace_all all]
  | @comment g gap rest space all =>
    have both : (g :: gap).all isspace = true := by
      rw [List.all_cons, space, all]
      rfl
    refine ⟨';' :: rest, fun v => ?_, by simp⟩
    rw [List.cons_append, trits_space space, ← List.cons_append, skipSpace_gap _ both rfl]

/-- In front of a comma the tryte ends. -/
theorem trits_comma {gap : List Char} (all : gap.all isspace = true) (s : List Char)
    (v : BitVec 32) : trits (gap ++ ',' :: s) v = some (v, ',' :: s) := by
  cases gap with
  | nil => rfl
  | cons g gap =>
    have space : isspace g = true := by
      rw [List.all_cons, Bool.and_eq_true] at all
      exact all.1
    rw [List.cons_append, trits_space space, ← List.cons_append, skipSpace_gap _ all rfl]

/-- **`add_t4` places a constant**: its own byte, and what is left of the string. -/
theorem Packs.addT4 {o : Out} {img : List ℕ} (packs : Packs o img) {gap ts r r' : List Char}
    (all : gap.all isspace = true) (constant : Constant ts)
    (ends : ∀ v, trits r v = some (v, r')) :
    ∃ o', addT4 (gap ++ (ts ++ r)) o = (o', r') ∧ Packs o' (img ++ [code ts]) := by
  obtain ⟨w, eq, value, small⟩ := trits_constant constant r
  have begins : skipSpace (gap ++ (ts ++ r)) = ts ++ r := by
    cases ts with
    | nil => cases constant.some
    | cons c ts =>
      have trit := constant.all c List.mem_cons_self
      refine skipSpace_gap gap all ?_
      obtain rfl | rfl | rfl := trit <;> rfl
  refine ⟨o.put w, ?_, ?_⟩
  · unfold Cod5asm.addT4
    rw [begins, eq, ends]
  · rw [← value]
    exact packs.put small

/-- **A list of constants** places each of them in turn. -/
theorem Packs.t4Loop {s : List Char} {cs : List (List Char)} (constants : Constants s cs) :
    ∀ {n : ℕ} {o : Out} {img : List ℕ}, s.length < n → Packs o img →
      Packs (t4Loop n s o) (img ++ cs.map code) := by
  induction constants with
  | @last gap ts tail all constant ends =>
    intro n o img fuel packs
    obtain ⟨r, same, other⟩ := trits_tail ends
    obtain ⟨o', eq, packs'⟩ := packs.addT4 all constant same
    cases n with
    | zero => cases fuel
    | succ n =>
      rw [Cod5asm.t4Loop, eq]
      cases r with
      | nil => exact packs'
      | cons c r =>
        have last : c ≠ ',' := by simpa using other
        split
        · next heq => exact absurd (List.cons.inj (Prod.mk.inj heq).2).1 last
        · next heq =>
          cases heq
          exact packs'
  | @more gap ts gap' s cs all constant all' _ ih =>
    intro n o img fuel packs
    obtain ⟨o', eq, packs'⟩ := packs.addT4 all constant (trits_comma all' s)
    cases n with
    | zero => cases fuel
    | succ n =>
      have shorter : s.length < n := by
        simp only [List.length_append, List.length_cons] at fuel
        omega
      rw [Cod5asm.t4Loop, eq]
      have later := ih shorter packs'
      rw [List.append_assoc] at later
      exact later

/-! ## Lines -/

/-- What a line of a source asks for. -/
inductive Item where
  | nothing
  | trytes (bytes : List ℕ)
  | org (address : ℕ)

/-- The bytes that are placed behind a line. -/
def Item.place (img : List ℕ) : Item → List ℕ
  | nothing => img
  | trytes bytes => img ++ bytes
  | org address => img ++ List.replicate (address - img.length) 0

/-- An address that is not below what is placed already. -/
def Item.Fits (img : List ℕ) : Item → Prop
  | org address => img.length ≤ address
  | _ => True

/-- **The lines of a source**: blank, a comment, constants, an opcode without an operand, or an
address. -/
inductive Reads : List Char → Item → Prop where
  | blank {gap : List Char} : gap.all isspace = true → Reads gap .nothing
  | comment {gap rest : List Char} : gap.all isspace = true → Reads (gap ++ ';' :: rest) .nothing
  | t4 {gap : List Char} {g : Char} {s : List Char} {cs : List (List Char)} :
      gap.all isspace = true → isspace g = true → Constants s cs →
      Reads (gap ++ '.' :: 't' :: '4' :: g :: s) (.trytes (cs.map code))
  | opcode {gap : List Char} {op : Opcode} {e : Char} {rest : List Char} :
      gap.all isspace = true → op ∈ ops → op.flags = 0 → isEnd e = true →
      Reads (gap ++ (op.name ++ e :: rest)) (.trytes [code op.t4])
  | org {gap : List Char} {g : Char} {gap' digits rest : List Char} (address : ℕ) :
      gap.all isspace = true → isspace g = true → gap'.all isspace = true → digits ≠ [] →
      digits.all isDigit = true → rest.head?.all (fun c => !isDigit c) = true →
      decimal digits = address →
      Reads (gap ++ '.' :: 'o' :: 'r' :: 'g' :: g :: gap' ++ (digits ++ rest)) (.org address)

/-- `.org` fills up with zeros. -/
theorem Packs.pad (n : ℕ) : ∀ {o : Out} {img : List ℕ}, Packs o img →
    Packs (pad (img.length + n : ℕ) n o) (img ++ List.replicate n 0) := by
  induction n with
  | zero =>
    intro o img packs
    rw [List.replicate_zero, List.append_nil]
    exact packs
  | succ n ih =>
    intro o img packs
    have more : (o.offset : ℤ) < (img.length + (n + 1) : ℕ) := by
      rw [packs.offset]
      omega
    have later := ih (packs.put (v := 0#32) (by decide))
    have address : (img ++ [(0#32).toNat]).length + n = img.length + (n + 1) := by
      rw [List.length_append, List.length_singleton]
      omega
    rw [address, List.append_assoc] at later
    rw [Cod5asm.pad, if_pos more]
    exact later

theorem token_append {name : List Char} (plain : ∀ c ∈ name, isEnd c = false) {e : Char}
    (stops : isEnd e = true) (rest : List Char) : token (name ++ e :: rest) = name := by
  induction name with
  | nil => exact token_cons_end stops rest
  | cons c name ih =>
    rw [List.cons_append, token_cons (plain c List.mem_cons_self),
      ih fun d mem => plain d (List.mem_cons_of_mem c mem)]

/-- The assembler's table has no name behind one that it begins. -/
theorem ops_find : ∀ op ∈ ops, (ops.find? fun e => op.name.isPrefixOf e.name) = some op := by
  decide

theorem ops_constant : ∀ op ∈ ops, Constant op.t4 := by
  intro op mem
  have same : ∀ op ∈ ops, op.t4 = dashes := by decide
  rw [same op mem]
  exact ⟨fun c here => .inr (.inl (by simpa [dashes] using here)), by decide, by decide⟩

/-- **A mnemonic of the assembler is found** by its name. -/
theorem entry_ops {line : List Char} (ends : ∃ c ∈ cstr line, isEnd c = true) {op : Opcode}
    (mem : op ∈ ops) (named : token line = op.name) : entry line ops = some op := by
  rw [entry_eq ends ops_shape.plain, named]
  exact ops_find op mem

/-- White space is skipped in the string. -/
theorem skipSpace_cstr (mem : List Char) : skipSpace (cstr mem) = cstr (skipSpace mem) := by
  induction mem with
  | nil => rfl
  | cons c mem ih =>
    by_cases nul : c = '\x00'
    · rw [nul]
      rfl
    · rw [cstr_cons nul, skipSpace, skipSpace, List.dropWhile_cons, List.dropWhile_cons]
      cases isspace c with
      | true => exact ih
      | false => exact (cstr_cons nul mem).symm

theorem lineStep_t4 {mem s : List Char} {g : Char}
    (begins : skipSpace (cstr mem) = '.' :: 't' :: '4' :: g :: s) (space : isspace g = true)
    (buf : ℕ → Char) (o : Out) : lineStep buf mem o = .ok (t4Loop (s.length + 4) s o) := by
  have t4 : directive ['.', 't', '4'] ('.' :: 't' :: '4' :: g :: s) = true := by
    simp [directive, space]
  unfold lineStep
  simp only [begins, t4, List.cons_ne_nil, if_false, if_true]
  rfl

theorem lineStep_org {mem s : List Char} {g : Char}
    (begins : skipSpace (cstr mem) = '.' :: 'o' :: 'r' :: 'g' :: g :: s)
    (space : isspace g = true) (buf : ℕ → Char) (o : Out) : lineStep buf mem o =
      if atoi (skipSpace (g :: s)) < o.offset then .error .exit
      else .ok (pad (atoi (skipSpace (g :: s)))
        (atoi (skipSpace (g :: s)) - o.offset).toNat o) := by
  have org : directive ['.', 'o', 'r', 'g'] ('.' :: 'o' :: 'r' :: 'g' :: g :: s) = true := by
    simp [directive, space]
  have t4 : directive ['.', 't', '4'] ('.' :: 'o' :: 'r' :: 'g' :: g :: s) = false := by
    simp [directive]
  unfold lineStep
  simp only [begins, org, t4, List.head?_cons, List.cons_ne_nil, if_false, if_true,
    Bool.false_eq_true, List.drop_succ_cons, List.drop_zero]
  rfl

/-- A line that is no directive, no comment and not blank goes to `add_opcode`. -/
theorem lineStep_opcode {mem : List Char} (some : skipSpace (cstr mem) ≠ [])
    (t4 : directive ['.', 't', '4'] (skipSpace (cstr mem)) = false)
    (comment : (skipSpace (cstr mem)).head? ≠ .some ';')
    (org : directive ['.', 'o', 'r', 'g'] (skipSpace (cstr mem)) = false) (buf : ℕ → Char)
    (o : Out) :
    lineStep buf mem o = match addOpcode buf (skipSpace mem) o ops with
      | none => .error .fault
      | .some (o, ret) => if ret = 0 then .ok o else .error .exit := by
  have noT4 : ¬directive ['.', 't', '4'] (skipSpace (cstr mem)) = true := by
    rw [t4]
    exact Bool.false_ne_true
  have noOrg : ¬directive ['.', 'o', 'r', 'g'] (skipSpace (cstr mem)) = true := by
    rw [org]
    exact Bool.false_ne_true
  unfold lineStep
  exact (if_neg some).trans ((if_neg noT4).trans ((if_neg comment).trans (if_neg noOrg)))

/-- A mnemonic is no directive and no comment. -/
theorem opcode_begins {op : Opcode} (mem : op ∈ ops) {gap : List Char}
    (all : gap.all isspace = true) (s : List Char) :
    skipSpace (gap ++ (op.name ++ s)) = op.name ++ s ∧ op.name ++ s ≠ [] ∧
      (∀ name, directive ('.' :: name) (op.name ++ s) = false) ∧
      (op.name ++ s).head? ≠ some ';' := by
  have plain := ops_shape.plain op mem
  have dotless : ∀ op ∈ ops, op.name.head? ≠ some '.' := by decide
  have dot := dotless op mem
  cases eq : op.name with
  | nil => exact absurd eq (ops_shape.nonempty op mem)
  | cons c name =>
    have goes : isEnd c = false := plain c (eq ▸ List.mem_cons_self)
    have both : isspace c = false ∧ c ≠ ';' := by simpa [isEnd] using goes
    have other : c ≠ '.' := by simpa [eq] using dot
    refine ⟨skipSpace_gap gap all both.1, List.cons_ne_nil _ _, fun d => ?_, ?_⟩
    · simp [directive, other.symm]
    · simpa using both.2

/-- An opcode places its own byte. -/
theorem Packs.opcode {o : Out} {img : List ℕ} (packs : Packs o img) {op : Opcode}
    (mem : op ∈ ops) : Packs (Cod5asm.addT4 op.t4 o).1 (img ++ [code op.t4]) := by
  obtain ⟨o', placed, packs'⟩ :=
    @Packs.addT4 o img packs [] op.t4 [] [] rfl (ops_constant op mem) fun _ => rfl
  rw [List.nil_append, List.append_nil] at placed
  rw [placed]
  exact packs'

/-- **Every kind of line extends the image by its own bytes.** -/
theorem Packs.line {m line : List Char} (string : cstr m = line) {item : Item}
    (reads : Reads line item) {o : Out} {img : List ℕ} (packs : Packs o img)
    (fits : item.Fits img) (buf : ℕ → Char) :
    ∃ o', lineStep buf m o = .ok o' ∧ Packs o' (item.place img) := by
  cases reads with
  | blank all =>
    refine ⟨o, ?_, packs⟩
    unfold lineStep
    rw [string, skipSpace_all all]
    rfl
  | comment all =>
    refine ⟨o, ?_, packs⟩
    unfold lineStep
    rw [string, skipSpace_gap _ all rfl]
    rfl
  | @t4 gap g s cs all space constants =>
    refine ⟨_, lineStep_t4 (string ▸ skipSpace_gap _ all rfl) space buf o, ?_⟩
    exact packs.t4Loop constants (by omega)
  | @opcode gap op e rest all mem plain stops =>
    obtain ⟨begins, some, dotless, comment⟩ := opcode_begins mem all (e :: rest)
    rw [← string] at begins
    have inst := begins
    rw [skipSpace_cstr] at inst
    have ends : ∃ x ∈ cstr (skipSpace m), isEnd x = true := ⟨e, by simp [inst], stops⟩
    have word : token (skipSpace m) = op.name := by
      rw [← token_cstr ends, inst]
      exact token_append (ops_shape.plain op mem) stops rest
    refine ⟨_, ?_, packs.opcode mem⟩
    have gathered : op.gather buf (behind (skipSpace m)) o = ((Cod5asm.addT4 op.t4 o).1, 0) := by
      rw [Opcode.gather, plain]
      rfl
    rw [lineStep_opcode (begins.symm ▸ some) (begins.symm ▸ dotless _) (begins.symm ▸ comment)
      (begins.symm ▸ dotless _), addOpcode_entry ops_shape.plain ends, entry_ops ends mem word]
    simp only [Option.elim_some, gathered, if_true]
  | @org gap g gap' digits rest address all space all' some digit last value =>
    have blank : (g :: gap').all isspace = true := by
      rw [List.all_cons, space, all']
      rfl
    cases digits with
    | nil => exact absurd rfl some
    | cons c digits =>
      have isDig : isDigit c = true := (Bool.and_eq_true_iff.mp digit).1
      have number : atoi (skipSpace (g :: gap' ++ (c :: digits ++ rest))) = address := by
        change atoi (skipSpace (g :: gap' ++ c :: (digits ++ rest))) = _
        rw [skipSpace_gap _ blank (isDigit_alone isDig).1,
          atoi_digit isDig, ← List.cons_append, decimal_append digit last, value]
      have bound : img.length ≤ address := fits
      have rounds : ((address : ℤ) - o.offset).toNat = address - img.length := by
        rw [packs.offset]
        omega
      have padded := packs.pad (address - img.length)
      rw [Nat.add_sub_cancel' bound] at padded
      have begins : skipSpace (gap ++ '.' :: 'o' :: 'r' :: 'g' :: g :: gap' ++
          (c :: digits ++ rest)) =
          '.' :: 'o' :: 'r' :: 'g' :: g :: (gap' ++ (c :: digits ++ rest)) := by
        rw [List.append_assoc]
        exact skipSpace_gap gap all rfl
      rw [← string] at begins
      have above : ¬(address : ℤ) < o.offset := by
        rw [packs.offset]
        omega
      refine ⟨_, ?_, padded⟩
      rw [lineStep_org begins space, ← List.cons_append, number, if_neg above, rounds]

/-! ## Files -/

/-- A line that ends with its newline and fits in the buffer. -/
def Line (line : List Char) : Prop :=
  ∃ body, line = body ++ ['\n'] ∧ '\n' ∉ body ∧ body.length ≤ 1022

/-- The string in the buffer is that of the line. -/
theorem cstr_load (mem line : List Char) : cstr (load mem line) = cstr line := by
  unfold load
  generalize mem.drop (line.length + 1) = rest
  induction line with
  | nil => rfl
  | cons c line ih =>
    by_cases nul : c = '\x00'
    · simp [cstr, nul]
    · rw [List.cons_append, cstr_cons nul, cstr_cons nul, ih]

/-- A line is read as it stands. -/
theorem fgets_line {body : List Char} (rest : List Char) : ∀ {buf : List Char}, '\n' ∉ body →
    buf.length + body.length ≤ 1022 →
    fgets buf (body ++ '\n' :: rest) = (buf ++ body ++ ['\n']) :: fgets [] rest := by
  induction body with
  | nil =>
    intro buf _ _
    simp [fgets]
  | cons c body ih =>
    intro buf other fits
    rw [List.mem_cons, not_or] at other
    rw [List.length_cons] at fits
    have goes : ¬(c = '\n' || buf.length + 1 = 1023) = true := by
      rw [Bool.or_eq_true, not_or, decide_eq_true_iff, decide_eq_true_iff]
      exact ⟨Ne.symm other.1, by omega⟩
    have fits' : (buf ++ [c]).length + body.length ≤ 1022 := by
      rw [List.length_append, List.length_singleton]
      omega
    rw [List.cons_append, fgets, if_neg goes, ih other.2 fits', List.append_assoc buf [c]]
    rfl

theorem fgets_flatten {lines : List (List Char)} (each : ∀ line ∈ lines, Line line) :
    fgets [] lines.flatten = lines := by
  induction lines with
  | nil => rfl
  | cons line lines ih =>
    obtain ⟨body, rfl, other, fits⟩ := each line List.mem_cons_self
    rw [List.flatten_cons, List.append_assoc, List.singleton_append,
      fgets_line _ other (by simpa using fits), ih fun l mem => each l (List.mem_cons_of_mem _ mem)]
    rfl

/-- Addresses never go back behind what is placed. -/
def Ascending : List ℕ → List Item → Prop
  | _, [] => True
  | img, item :: items => item.Fits img ∧ Ascending (item.place img) items

/-- **The run over the lines** places what they ask for, line after line. -/
theorem Packs.assemble {lines : List (List Char)} {items : List Item}
    (reads : List.Forall₂ (fun line item => Line line ∧ Reads (cstr line) item) lines items)
    (buf : ℕ → Char) : ∀ {mem : List Char} {o : Out} {img : List ℕ}, Packs o img →
      Ascending img items →
      ∃ o', assemble buf mem lines o = .ok o' ∧ Packs o' (items.foldl Item.place img) := by
  induction reads with
  | nil => exact fun {_ o _} packs _ => ⟨o, rfl, packs⟩
  | @cons line item lines items here _ ih =>
    intro mem o img packs ascending
    obtain ⟨o', eq, packs'⟩ := packs.line (cstr_load mem line) here.2 ascending.1 buf
    obtain ⟨last, run, final⟩ := ih packs' ascending.2
    refine ⟨last, ?_, final⟩
    rw [Cod5asm.assemble, eq]
    exact run

/-- Behind `.org` the next tryte is at its address. -/
theorem Ascending.org {address : ℕ} {after before : List Item} : ∀ {img : List ℕ},
    Ascending img (before ++ Item.org address :: after) →
      ((before ++ [Item.org address]).foldl Item.place img).length = address := by
  induction before with
  | nil =>
    intro img ascending
    have bound : img.length ≤ address := ascending.1
    simp [Item.place]
    omega
  | cons item before ih => exact fun ascending => ih ascending.2

theorem Ascending.left {after before : List Item} : ∀ {img : List ℕ},
    Ascending img (before ++ after) → Ascending img before := by
  induction before with
  | nil => exact fun _ => trivial
  | cons item before ih => exact fun ascending => ⟨ascending.1, ih ascending.2⟩

/-- What is placed stays in the image. -/
theorem place_length (items : List Item) : ∀ img : List ℕ,
    img.length ≤ (items.foldl Item.place img).length := by
  induction items with
  | nil => exact fun _ => le_rfl
  | cons item items ih =>
    refine fun img => le_trans ?_ (ih (item.place img))
    cases item with
    | nothing => exact le_rfl
    | trytes bytes => simp [Item.place]
    | org address => simp [Item.place]

/-- **The image of a source**: one word for each multiple of four up to the last address that is
used, in ascending order, and byte `j` of the word at `4 * k` is what is placed at `4 * k + j`, or
zero where nothing is. Behind `.org` the next tryte is at its address. The offset is never above the
length of the image, so where this is an `int`, every offset and every address is one. -/
theorem image_layout {lines : List (List Char)} {items : List Item}
    (reads : List.Forall₂ (fun line item => Line line ∧ Reads (cstr line) item) lines items)
    (ascending : Ascending [] items) (buf : ℕ → Char) (mem : List Char) :
    (∃ words, main buf mem lines.flatten = .ok words ∧
      words.map Prod.fst =
        (List.range (((items.foldl Item.place []).length + 3) / 4)).map (4 * ·) ∧
      ∀ (k : ℕ) (w : BitVec 32), (4 * k, w) ∈ words → ∀ j < 4,
        w.toNat / 256 ^ j % 256 = (items.foldl Item.place []).getD (4 * k + j) 0) ∧
    (∀ before address after, items = before ++ .org address :: after →
      ((before ++ [.org address]).foldl Item.place []).length = address) ∧
    ∀ before after, lines = before ++ after → ∃ o, assemble buf mem before .start = .ok o ∧
      o.offset ≤ (items.foldl Item.place []).length := by
  have each : ∀ line ∈ lines, Line line :=
    ((List.forall₂_and_left lines items).mp reads).1
  obtain ⟨o, run, packs⟩ := Packs.start.assemble reads buf ascending
  refine ⟨⟨o.flush, ?_, ?_, fun k w mem j hj => ?_⟩, fun before address after eq => ?_,
    fun before after eq => ?_⟩
  · rw [main, fgets_flatten each, run]
    rfl
  · rw [packs.flush, List.map_map]
    rfl
  · rw [packs.flush] at mem
    obtain ⟨k', _, same⟩ := List.mem_map.mp mem
    obtain ⟨address, rfl⟩ := Prod.mk.inj same
    obtain rfl : k' = k := by omega
    have fits : word 256 4 (items.foldl Item.place []) k' < 2 ^ 32 :=
      Packed.value_lt fun i _ => Packed.getD_lt packs.small (by decide) _
    rw [BitVec.toNat_ofNat, Nat.mod_eq_of_lt fits]
    exact Packed.word_digit packs.small (by decide) hj k'
  · subst eq
    exact ascending.org
  · have split := List.take_append_drop before.length items
    have first := List.forall₂_take before.length reads
    rw [eq, List.take_left] at first
    rw [← split] at ascending
    obtain ⟨o, run, packs⟩ := Packs.start.assemble first buf ascending.left
    refine ⟨o, run, ?_⟩
    rw [packs.offset, ← split, List.foldl_append, split]
    exact place_length _ _

/-- A constant of two trits, an address inside of the next word, and an opcode. -/
theorem image_layout_three :
    (∃ words, main (fun _ => ' ') [] (List.flatten
        [['.', 't', '4', ' ', '+', '-', '\n'], ['.', 'o', 'r', 'g', ' ', '6', '\n'],
          ['a', 'd', 'd', '\n']]) = .ok words ∧
      words.map Prod.fst = (List.range ((([.trytes [6], .org 6, .trytes [170]].foldl
        Item.place []).length + 3) / 4)).map (4 * ·) ∧
      ∀ (k : ℕ) (w : BitVec 32), (4 * k, w) ∈ words → ∀ j < 4, w.toNat / 256 ^ j % 256 =
        ([.trytes [6], .org 6, .trytes [170]].foldl Item.place []).getD (4 * k + j) 0) ∧
    (∀ before address after,
      [.trytes [6], .org 6, .trytes [170]] = before ++ .org address :: after →
        ((before ++ [.org address]).foldl Item.place []).length = address) ∧
    ∀ before after, [['.', 't', '4', ' ', '+', '-', '\n'], ['.', 'o', 'r', 'g', ' ', '6', '\n'],
        ['a', 'd', 'd', '\n']] = before ++ after →
      ∃ o, assemble (fun _ => ' ') [] before .start = .ok o ∧
        o.offset ≤ ([.trytes [6], .org 6, .trytes [170]].foldl Item.place []).length := by
  have none : ([] : List Char).all isspace = true := rfl
  have constant : Constant ['+', '-'] :=
    ⟨by simp [IsTrit], by decide, by decide⟩
  have t4 : Reads ['.', 't', '4', ' ', '+', '-', '\n'] (.trytes [6]) :=
    @Reads.t4 [] ' ' ['+', '-', '\n'] [['+', '-']] none rfl
      (@Constants.last [] ['+', '-'] ['\n'] none constant (.blank rfl))
  have org : Reads ['.', 'o', 'r', 'g', ' ', '6', '\n'] (.org 6) :=
    @Reads.org [] ' ' [] ['6'] ['\n'] 6 none rfl none (List.cons_ne_nil _ _) rfl rfl rfl
  have add : Reads ['a', 'd', 'd', '\n'] (.trytes [170]) :=
    @Reads.opcode [] ⟨['a', 'd', 'd'], dashes, 0⟩ '\n' [] none (by simp [ops]) rfl rfl
  refine image_layout (.cons ⟨⟨['.', 't', '4', ' ', '+', '-'], rfl, by decide, by decide⟩, t4⟩
    (.cons ⟨⟨['.', 'o', 'r', 'g', ' ', '6'], rfl, by decide, by decide⟩, org⟩
    (.cons ⟨⟨['a', 'd', 'd'], rfl, by decide, by decide⟩, add⟩ .nil))) ?_ (fun _ => ' ') []
  have above : Item.Fits [6] (.org 6) := show 1 ≤ 6 by decide
  exact ⟨trivial, above, trivial, trivial⟩

end Teres.Tools.Cod5asm
