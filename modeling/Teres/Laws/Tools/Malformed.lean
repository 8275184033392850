import Teres.Laws.Tools.Assembler

/-!
# Malformed sources

The assembler takes no notice of what `add_t4` finds. A constant with a wrong character is left out,
one of more than four trits runs into its neighbours, and what is no number behind `ldia` is passed
over. So a source is assembled as it says just where each of these lines is well formed, or where
the assembler stops at some line (`silent_iff`).
-/

namespace Teres.Tools.Cod5asm

/-! ## Operands -/

/-- Four rounds of `bin2ter` write four trits and a comma behind them, and nothing after that. -/
theorem rounds_group {i base : ℕ}
    (group : i = 11 ∧ base = 10 ∨ i = 7 ∧ base = 5 ∨ i = 3 ∧ base = 0) (s : Digits) :
    (∀ k < 4, IsTrit (([i, i - 1, i - 2, i - 3].foldl Digits.round s).buf (base + k))) ∧
      ([i, i - 1, i - 2, i - 3].foldl Digits.round s).buf (base + 4) = ',' ∧
      ∀ k, base + 4 < k → ([i, i - 1, i - 2, i - 3].foldl Digits.round s).buf k = s.buf k := by
  have four {k : ℕ} (hk : k < 4) : k = 0 ∨ k = 1 ∨ k = 2 ∨ k = 3 := by omega
  rcases group with ⟨rfl, rfl⟩ | ⟨rfl, rfl⟩ | ⟨rfl, rfl⟩
  all_goals
    refine ⟨fun k hk => ?_, rfl, fun k hk => ?_⟩
    · rcases four hk with rfl | rfl | rfl | rfl <;> exact digit_isTrit _ _
    · simp (disch := omega) [Digits.round, Digits.place, Function.update_of_ne]

/-- **The text of `bin2ter`**: four times four trits, with commas between. -/
theorem bin2ter_text (v : ℤ) (buf : ℕ → Char) : ∃ d : ℕ → Char,
    (∀ k < 19, k ≠ 4 → k ≠ 9 → k ≠ 14 → IsTrit (d k)) ∧
      bin2ter v buf = [d 0, d 1, d 2, d 3, ',', d 5, d 6, d 7, d 8, ',',
        d 10, d 11, d 12, d 13, ',', d 15, d 16, d 17, d 18] := by
  obtain ⟨a, first⟩ : ∃ a, a = [15, 14, 13, 12].foldl Digits.round
    ⟨v, 3 ^ 15, 12 + 3, Function.update buf (12 + 3 + 4) '\x00'⟩ := ⟨_, rfl⟩
  have top : ∀ k < 4, IsTrit (a.buf (15 + k)) := by
    intro k hk
    have four : k = 0 ∨ k = 1 ∨ k = 2 ∨ k = 3 := by omega
    rw [first]
    rcases four with rfl | rfl | rfl | rfl <;> exact digit_isTrit _ _
  obtain ⟨b, second⟩ : ∃ b, b = [11, 10, 9, 8].foldl Digits.round a := ⟨_, rfl⟩
  obtain ⟨c, third⟩ : ∃ c, c = [7, 6, 5, 4].foldl Digits.round b := ⟨_, rfl⟩
  obtain ⟨d, fourth⟩ : ∃ d, d = [3, 2, 1, 0].foldl Digits.round c := ⟨_, rfl⟩
  have text : bin2ter v buf = (List.range 19).map d.buf := by
    rw [fourth, third, second, first]
    rfl
  obtain ⟨bTrits, bComma, bRest⟩ := rounds_group (.inl ⟨rfl, rfl⟩) a
  obtain ⟨cTrits, cComma, cRest⟩ := rounds_group (.inr (.inl ⟨rfl, rfl⟩)) b
  obtain ⟨dTrits, dComma, dRest⟩ := rounds_group (.inr (.inr ⟨rfl, rfl⟩)) c
  simp only [Nat.reduceSub, Nat.reduceAdd, ← second] at bTrits bComma bRest
  simp only [Nat.reduceSub, Nat.reduceAdd, ← third] at cTrits cComma cRest
  simp only [Nat.reduceSub, Nat.reduceAdd, ← fourth] at dTrits dComma dRest
  refine ⟨d.buf, fun k hk ne ne' ne'' => ?_, ?_⟩
  · -- every position belongs to one group, and the later groups leave it
    have place : k < 4 ∨ 5 ≤ k ∧ k < 9 ∨ 10 ≤ k ∧ k < 14 ∨ 15 ≤ k := by omega
    rcases place with low | ⟨low, high⟩ | ⟨low, high⟩ | low
    · have here := dTrits k low
      rwa [Nat.zero_add] at here
    · rw [dRest k (by omega), ← Nat.add_sub_cancel' low]
      exact cTrits (k - 5) (by omega)
    · rw [dRest k (by omega), cRest k (by omega), ← Nat.add_sub_cancel' low]
      exact bTrits (k - 10) (by omega)
    · rw [dRest k (by omega), cRest k (by omega), bRest k (by omega), ← Nat.add_sub_cancel' low]
      exact top (k - 15) (by omega)
  · have nine : d.buf 9 = ',' := by rw [dRest 9 (by decide), cComma]
    have fourteen : d.buf 14 = ',' := by rw [dRest 14 (by decide), cRest 14 (by decide), bComma]
    have list : (List.range 19).map d.buf = [d.buf 0, d.buf 1, d.buf 2, d.buf 3, d.buf 4, d.buf 5,
        d.buf 6, d.buf 7, d.buf 8, d.buf 9, d.buf 10, d.buf 11, d.buf 12, d.buf 13, d.buf 14,
        d.buf 15, d.buf 16, d.buf 17, d.buf 18] := rfl
    rw [text, list, dComma, nine, fourteen]

/-- **A number is four bytes**, whatever it is. -/
theorem Packs.operand {o : Out} {img : List ℕ} (packs : Packs o img) {s rest : List Char} {c : Char}
    (begins : skipSpace s = c :: rest) (notComment : c ≠ ';')
    (number : (isDigit c || c = '-') = true) (buf : ℕ → Char) : ∃ bytes : List ℕ,
      bytes.length = 4 ∧ Packs (addOperand buf s o).1 (img ++ bytes) := by
  obtain ⟨d, trit, text⟩ := bin2ter_text (atoi (c :: rest)) buf
  have first : Constant [d 0, d 1, d 2, d 3] := by
    refine ⟨?_, by simp, by simp⟩
    simp [trit]
  have third : Constant [d 8] := by
    refine ⟨?_, by simp, by simp⟩
    simp [trit]
  have last : Constant [d 12, d 13] := by
    refine ⟨?_, by simp, by simp⟩
    simp [trit]
  have comma (s : List Char) (v : BitVec 32) : trits (',' :: s) v = some (v, ',' :: s) := rfl
  have none : ([] : List Char).all isspace = true := rfl
  obtain ⟨o₁, eq₁, packs₁⟩ := packs.addT4 none first
    (comma [d 5, d 6, d 7, d 8, ',', d 10, d 11, d 12, d 13, ',', d 15, d 16, d 17, d 18])
  have packs₂ := packs₁.put (v := 0#32) (by decide)
  obtain ⟨o₃, eq₃, packs₃⟩ := packs₂.addT4 none third
    (comma [d 10, d 11, d 12, d 13, ',', d 15, d 16, d 17, d 18])
  obtain ⟨o₄, eq₄, packs₄⟩ := packs₃.addT4 none last (comma [d 15, d 16, d 17, d 18])
  refine ⟨[code [d 0, d 1, d 2, d 3], 0, code [d 8], code [d 12, d 13]], rfl, ?_⟩
  rw [addOperand_number begins notComment number, text]
  simp only [List.nil_append, List.cons_append] at eq₁ eq₃ eq₄
  simp only [List.drop_succ_cons, List.drop_zero, eq₁]
  change Packs (Cod5asm.addT4 _ (Cod5asm.addT4 _ (o₁.put 0#32)).1).1 _
  rw [eq₃, eq₄]
  rw [List.append_assoc, List.append_assoc, List.append_assoc] at packs₄
  exact packs₄

/-- There is no operand: the line or its text is at its end. -/
def missing (s : List Char) : Bool := (skipSpace s).head?.all fun c => c = ';'

/-- An operand fails where it is missing. -/
theorem addOperand_result (buf : ℕ → Char) (s : List Char) (o : Out) :
    (addOperand buf s o).2 = 0 ↔ missing s = false := by
  unfold addOperand missing
  cases skipSpace s with
  | nil => simp
  | cons c rest =>
    by_cases comment : c = ';'
    · simp [comment]
    · by_cases number : (isDigit c || c = '-') = true
      · simp only [comment, number, if_false, if_true, List.head?_cons, Option.all_some,
          decide_false]
      · simp [comment, number]

/-- **What an operand places**: bytes of its own, where it places any. -/
theorem Packs.addOperand {o : Out} {img : List ℕ} (packs : Packs o img) (s : List Char)
    (buf : ℕ → Char) : ∃ bytes : List ℕ, Packs (addOperand buf s o).1 (img ++ bytes) := by
  have same (o' : Out) (eq : o' = o) : ∃ bytes : List ℕ, Packs o' (img ++ bytes) := by
    refine ⟨[], ?_⟩
    rw [List.append_nil, eq]
    exact packs
  cases begins : skipSpace s with
  | nil =>
    refine same _ ?_
    rw [Cod5asm.addOperand, begins]
  | cons c rest =>
    by_cases comment : c = ';'
    · refine same _ ?_
      rw [Cod5asm.addOperand, begins]
      simp [comment]
    · by_cases number : (isDigit c || c = '-') = true
      · obtain ⟨bytes, _, packs'⟩ := packs.operand begins comment number buf
        exact ⟨bytes, packs'⟩
      · refine same _ ?_
        rw [Cod5asm.addOperand, begins]
        simp only [comment, number, if_false, Bool.false_eq_true]

/-! ## Lines -/

/-- An integer behind white space, and white space or a comment behind it. -/
inductive Integer : List Char → Prop where
  | unsigned {gap digits gap' : List Char} {tail : List Char} : gap.all isspace = true →
      digits ≠ [] → digits.all isDigit = true → gap'.all isspace = true →
      tail.head?.all (fun c => c = ';') = true → Integer (gap ++ (digits ++ (gap' ++ tail)))
  | negative {gap digits gap' : List Char} {tail : List Char} : gap.all isspace = true →
      digits ≠ [] → digits.all isDigit = true → gap'.all isspace = true →
      tail.head?.all (fun c => c = ';') = true → Integer (gap ++ ('-' :: digits ++ (gap' ++ tail)))

/-- A line that loads an immediate. -/
def Loads (inst : List Char) : Prop :=
  token inst = ['l', 'd', 'i', 'a'] ∨ token inst = ['l', 'd', 'i', 'b']

/-- **A well-formed line**: the constants of a `.t4` line have one to four trits, and the operand of
`ldia` and `ldib` is an integer. -/
structure Fine (line : List Char) : Prop where
  t4 : directive ['.', 't', '4'] (skipSpace line) = true →
    ∃ cs, Constants ((skipSpace line).drop 4) cs
  loads : Loads (skipSpace line) → Integer (behind (skipSpace line))

theorem Constants.some {s : List Char} {cs : List (List Char)} (constants : Constants s cs) :
    0 < cs.length := by
  cases constants with
  | last _ _ _ => exact Nat.one_pos
  | more _ _ _ _ => exact Nat.succ_pos _

/-- **A line that is assembled as it says**: it is well formed, and it extends the image by one byte
for each constant, or by the opcode and four bytes for the operand. -/
structure Good (line : List Char) (o o' : Out) : Prop where
  t4 : directive ['.', 't', '4'] (skipSpace line) = true →
    ∃ cs img, Constants ((skipSpace line).drop 4) cs ∧ Packs o img ∧
      o'.offset = o.offset + cs.length ∧ Packs o' (img ++ cs.map code)
  loads : Loads (skipSpace line) → Integer (behind (skipSpace line)) ∧
    ∃ (img bytes : List ℕ), bytes.length = 4 ∧ Packs o img ∧
      o'.offset = o.offset + 5 ∧ Packs o' (img ++ code dashes :: bytes)

/-- **A line that the assembler refuses**: an address below what is placed, a token that begins no
mnemonic, or an opcode without its operand. A line that ends inside its token is refused unless the
token is a mnemonic, and the comparison, which goes on behind both, comes to white space or a
semicolon that an earlier line has left in the memory. -/
def Refused (mem : List Char) (offset : ℕ) : Prop :=
  skipSpace (cstr mem) ≠ [] ∧ directive ['.', 't', '4'] (skipSpace (cstr mem)) = false ∧
    (skipSpace (cstr mem)).head? ≠ some ';' ∧
    if directive ['.', 'o', 'r', 'g'] (skipSpace (cstr mem)) = true then
      atoi (skipSpace ((skipSpace (cstr mem)).drop 4)) < offset
    else ∀ op, entry (skipSpace mem) ops = some op →
      op.flags % 2 = 1 ∧ missing (cstr (behind (skipSpace mem))) = true

theorem directive_eq {name inst : List Char} (found : directive name inst = true) :
    ∃ g s, inst = name ++ g :: s ∧ isspace g = true := by
  rw [directive, Bool.and_eq_true, List.isPrefixOf_iff_prefix] at found
  obtain ⟨⟨t, rfl⟩, space⟩ := found
  rw [List.drop_left] at space
  cases t with
  | nil => cases space
  | cons g s => exact ⟨g, s, rfl, space⟩

/-- In a table without white space and semicolons the comparison comes at most to the first of them
in the line. -/
theorem strip_plain {bytes line : List Char} : ∀ {s : List Char},
    (∀ c ∈ bytes, isEnd c = false) → strip line bytes = some s → s.head?.any isEnd = true →
      s = behind line := by
  induction bytes generalizing line with
  | nil =>
    intro s _ eq
    cases line <;> cases eq
  | cons d bytes ih =>
    intro s plain eq stops
    cases line with
    | nil => cases eq
    | cons c line =>
      rw [strip] at eq
      split_ifs at eq with same
      · rw [behind_cons (same ▸ plain d List.mem_cons_self)]
        exact ih (fun x mem => plain x (List.mem_cons_of_mem d mem)) eq stops
      · cases eq
        exact (behind_cons_end stops line).symm

/-- **`add_opcode` on any line**: without an entry it does not succeed, and the one it takes it
gathers with what stands behind the token. -/
theorem addOpcode_plain {table : List Opcode} (plain : ∀ c ∈ tableBytes table, isEnd c = false)
    (buf : ℕ → Char) (line : List Char) (o : Out) :
    entry line table = none ∧ addOpcode buf line o table = none ∨ addOpcode buf line o table =
      some ((entry line table).elim (o, -1) (Opcode.gather buf (behind line) o)) := by
  induction table with
  | nil => exact .inr rfl
  | cons op table ih =>
    have passed := ih fun c mem => plain c (by
      rw [tableBytes, List.flatMap_cons, List.append_assoc]
      exact List.mem_append_right _ mem)
    rw [addOpcode_cons, entry]
    cases eq : strip line (tableBytes (op :: table)) with
    | none => exact .inl ⟨rfl, rfl⟩
    | some s =>
      rw [Option.elim_some]
      change (if s.head?.any isEnd = true then _ else _) = _ ∧ _ ∨
        _ = some (Option.elim (if s.head?.any isEnd = true then _ else _) _ _)
      cases stops : s.head?.any isEnd with
      | true =>
        rw [if_pos rfl, if_pos rfl, ← strip_plain plain eq stops]
        exact .inr rfl
      | false =>
        rw [if_neg Bool.false_ne_true, if_neg Bool.false_ne_true]
        exact passed

theorem ops_plain : ∀ c ∈ tableBytes ops, isEnd c = false := by
  have all : ((tableBytes ops).all fun c => !isEnd c) = true := by decide +kernel
  simpa only [List.all_eq_true, Bool.not_eq_true'] using all

/-- It succeeds where the entry it takes has its operand or needs none. -/
theorem addOpcode_iff (buf : ℕ → Char) (line : List Char) (o o' : Out) :
    addOpcode buf line o ops = some (o', 0) ↔ ∃ op, entry line ops = some op ∧
      (op.flags % 2 = 1 → missing (cstr (behind line)) = false) ∧
      (op.gather buf (behind line) o).1 = o' := by
  rcases addOpcode_plain ops_plain buf line o with ⟨none, fault⟩ | eq
  · simp [none, fault]
  · rw [eq]
    cases found : entry line ops with
    | none => simp
    | some op =>
      have result : (op.gather buf (behind line) o).2 = 0 ↔
          (op.flags % 2 = 1 → missing (cstr (behind line)) = false) := by
        unfold Opcode.gather
        by_cases load : op.flags % 2 = 1
        · simp only [load, if_true, addOperand_result, forall_const]
        · simp [load]
      simp only [Option.elim_some, Option.some.injEq, exists_eq_left', Prod.ext_iff, result]
      exact and_comm

/-- **What a line that goes to `add_opcode` does.** -/
theorem lineStep_ok_iff {mem : List Char} (some : skipSpace (cstr mem) ≠ [])
    (t4 : directive ['.', 't', '4'] (skipSpace (cstr mem)) = false)
    (comment : (skipSpace (cstr mem)).head? ≠ .some ';')
    (org : directive ['.', 'o', 'r', 'g'] (skipSpace (cstr mem)) = false) (buf : ℕ → Char)
    (o o' : Out) : lineStep buf mem o = .ok o' ↔
      addOpcode buf (skipSpace mem) o ops = .some (o', 0) := by
  rw [lineStep_opcode some t4 comment org]
  cases addOpcode buf (skipSpace mem) o ops with
  | none => simp
  | some result =>
    obtain ⟨out, ret⟩ := result
    by_cases zero : ret = 0
    · simp [zero]
    · simp [zero]

/-- **The assembler stops at a line that it refuses**, and at no other. -/
theorem lineStep_stops (buf : ℕ → Char) (mem : List Char) (o : Out) :
    (∀ o', lineStep buf mem o ≠ .ok o') ↔ Refused mem o.offset := by
  unfold Refused
  by_cases blank : skipSpace (cstr mem) = []
  · have eq : lineStep buf mem o = .ok o := by simp [lineStep, blank]
    simp [blank, eq]
  cases t4 : directive ['.', 't', '4'] (skipSpace (cstr mem)) with
  | true =>
    obtain ⟨g, s, begins, space⟩ := directive_eq t4
    simp [lineStep_t4 begins space]
  | false =>
    by_cases comment : (skipSpace (cstr mem)).head? = some ';'
    · have eq : lineStep buf mem o = .ok o := by
        simp only [lineStep, blank, t4, comment, if_false, if_true, Bool.false_eq_true]
      simp [comment, eq]
    · cases org : directive ['.', 'o', 'r', 'g'] (skipSpace (cstr mem)) with
      | true =>
        obtain ⟨g, s, begins, space⟩ := directive_eq org
        rw [lineStep_org begins space, begins]
        by_cases below : atoi (skipSpace (g :: s)) < o.offset
        · simp [below]
        · simp [below]
      | false =>
        simp only [lineStep_ok_iff blank t4 comment org, addOpcode_iff, ne_eq, blank, comment,
          not_false_eq_true, true_and, if_false, Bool.false_eq_true]
        constructor
        · intro never op found
          by_contra other
          refine never _ ⟨op, found, fun load => ?_, rfl⟩
          rw [not_and, Bool.not_eq_true] at other
          exact other load
        · rintro all o' ⟨op, found, operand, _⟩
          obtain ⟨load, none⟩ := all op found
          exact Bool.false_ne_true ((operand load).symm.trans none)

/-- An integer begins like one. -/
theorem Integer.begins {s : List Char} (integer : Integer s) : ∃ c rest,
    skipSpace s = c :: rest ∧ c ≠ ';' ∧ (isDigit c || c = '-') = true := by
  cases integer with
  | @unsigned gap digits gap' tail all some digit _ _ =>
    cases digits with
    | nil => exact absurd rfl some
    | cons c digits =>
      have isDig : isDigit c = true := (Bool.and_eq_true_iff.mp digit).1
      obtain ⟨notSpace, notComment, _⟩ := isDigit_alone isDig
      refine ⟨c, _, skipSpace_gap gap all notSpace, notComment, ?_⟩
      rw [isDig, Bool.true_or]
  | @negative gap digits gap' tail all _ _ _ _ =>
    exact ⟨'-', _, skipSpace_gap gap all rfl, by decide, rfl⟩

/-- A line that loads an immediate is nothing else. -/
theorem Loads.begins {inst : List Char} (loads : Loads inst) : inst.head? = some 'l' := by
  cases inst with
  | nil => rcases loads with eq | eq <;> cases eq
  | cons c inst =>
    cases stops : isEnd c with
    | true =>
      unfold Loads at loads
      rw [token_cons_end stops] at loads
      rcases loads with eq | eq <;> cases eq
    | false =>
      unfold Loads at loads
      rw [token_cons stops] at loads
      rcases loads with eq | eq
      · rw [(List.cons.inj eq).1]
        rfl
      · rw [(List.cons.inj eq).1]
        rfl

/-- The opcode of such a line. -/
theorem Loads.entry {inst : List Char} (loads : Loads (cstr inst))
    (ends : ∃ c ∈ cstr inst, isEnd c = true) :
    ∃ op, entry inst ops = some op ∧ op.flags % 2 = 1 ∧ op.t4 = dashes := by
  unfold Loads at loads
  rw [token_cstr ends] at loads
  rcases loads with named | named
  · exact ⟨⟨['l', 'd', 'i', 'a'], dashes, 1⟩, entry_ops ends (by simp [ops]) named, rfl, rfl⟩
  · exact ⟨⟨['l', 'd', 'i', 'b'], dashes, 1⟩, entry_ops ends (by simp [ops]) named, rfl, rfl⟩

/-- An integer behind the token has white space in front. -/
theorem Integer.ends {inst : List Char} (integer : Integer (behind inst)) :
    ∃ c ∈ inst, isEnd c = true := by
  by_contra none
  have endless : ∀ c ∈ inst, (!isEnd c) = true := by simpa using none
  obtain ⟨c, rest, begins, _⟩ := integer.begins
  rw [behind, List.dropWhile_eq_nil_iff.mpr endless] at begins
  cases begins

/-- A line without constants and without an immediate. -/
theorem Good.other {line : List Char}
    (t4 : directive ['.', 't', '4'] (skipSpace line) = false)
    (plain : (skipSpace line).head? ≠ some 'l') (o o' : Out) : Good line o o' where
  t4 := fun found => absurd (t4.symm.trans found) Bool.false_ne_true
  loads := fun loads => absurd loads.begins plain

/-- **A line of constants** extends the image by one byte for each of them. -/
theorem Packs.fine_t4 {o o' : Out} {img : List ℕ} (packs : Packs o img) {mem : List Char}
    (fine : Fine (cstr mem)) (t4 : directive ['.', 't', '4'] (skipSpace (cstr mem)) = true)
    (buf : ℕ → Char) (step : lineStep buf mem o = .ok o') :
    Good (cstr mem) o o' ∧ ∃ bytes : List ℕ, Packs o' (img ++ bytes) := by
  obtain ⟨cs, constants⟩ := fine.t4 t4
  obtain ⟨g, s, begins, space⟩ := directive_eq t4
  have text : (skipSpace (cstr mem)).drop 4 = s := by
    rw [begins]
    rfl
  have bound : s.length < s.length + 4 := by omega
  have packs' := packs.t4Loop (text ▸ constants) bound
  rw [lineStep_t4 begins space, Except.ok.injEq] at step
  rw [step] at packs'
  refine ⟨⟨fun _ => ⟨cs, img, constants, packs, ?_, packs'⟩, fun loads => ?_⟩, _, packs'⟩
  · rw [packs'.offset, packs.offset, List.length_append, List.length_map]
  · have other := loads.begins
    rw [begins] at other
    cases other

/-- **An opcode** extends the image by its own byte, and by four for an integer behind it. -/
theorem Packs.fine_opcode {o o' : Out} {img : List ℕ} (packs : Packs o img) {mem : List Char}
    (fine : Fine (cstr mem)) (t4 : directive ['.', 't', '4'] (skipSpace (cstr mem)) = false)
    (buf : ℕ → Char) (step : addOpcode buf (skipSpace mem) o ops = some (o', 0)) :
    Good (cstr mem) o o' ∧ ∃ bytes : List ℕ, Packs o' (img ++ bytes) := by
  obtain ⟨op, found, operand, rfl⟩ := (addOpcode_iff ..).mp step
  have placed := packs.opcode (entry_mem found)
  refine ⟨⟨fun here => absurd (t4.symm.trans here) Bool.false_ne_true, fun loads => ?_⟩, ?_⟩
  · have integer := fine.loads loads
    have ends := integer.ends
    rw [skipSpace_cstr] at loads integer ends
    obtain ⟨op', found', load, trytes⟩ := loads.entry ends
    cases found.symm.trans found'
    rw [← behind_cstr ends] at integer
    obtain ⟨c, rest, begins, notComment, number⟩ := integer.begins
    obtain ⟨bytes, four, packs'⟩ := placed.operand begins notComment number buf
    rw [trytes, List.append_assoc, List.singleton_append] at packs'
    have gathered : op.gather buf (behind (skipSpace mem)) o =
        Cod5asm.addOperand buf (cstr (behind (skipSpace mem))) (Cod5asm.addT4 dashes o).1 := by
      rw [Opcode.gather, if_pos load, trytes]
    rw [gathered]
    rw [behind_cstr ends, ← skipSpace_cstr] at integer
    refine ⟨integer, img, bytes, four, packs, ?_, packs'⟩
    rw [packs'.offset, packs.offset, List.length_append, List.length_cons, four]
  · unfold Opcode.gather
    split_ifs
    · obtain ⟨bytes, packs'⟩ := placed.addOperand (cstr (behind (skipSpace mem))) buf
      rw [List.append_assoc] at packs'
      exact ⟨_, packs'⟩
    · exact ⟨_, placed⟩

/-- **A well-formed line is assembled as it says**, and every line extends the image. -/
theorem Packs.fine {o o' : Out} {img : List ℕ} (packs : Packs o img) {mem : List Char}
    (fine : Fine (cstr mem)) (buf : ℕ → Char) (step : lineStep buf mem o = .ok o') :
    Good (cstr mem) o o' ∧ ∃ bytes : List ℕ, Packs o' (img ++ bytes) := by
  have same : ∃ bytes : List ℕ, Packs o (img ++ bytes) := by
    refine ⟨[], ?_⟩
    rw [List.append_nil]
    exact packs
  cases t4 : directive ['.', 't', '4'] (skipSpace (cstr mem)) with
  | true => exact packs.fine_t4 fine t4 buf step
  | false =>
    by_cases blank : skipSpace (cstr mem) = []
    · have eq : lineStep buf mem o = .ok o := by simp [lineStep, blank]
      cases eq.symm.trans step
      exact ⟨Good.other t4 (by simp [blank]) o o, same⟩
    · by_cases comment : (skipSpace (cstr mem)).head? = some ';'
      · have eq : lineStep buf mem o = .ok o := by
          simp only [lineStep, blank, t4, comment, if_false, if_true, Bool.false_eq_true]
        cases eq.symm.trans step
        exact ⟨Good.other t4 (by simp [comment]) o o, same⟩
      · cases org : directive ['.', 'o', 'r', 'g'] (skipSpace (cstr mem)) with
        | true =>
          obtain ⟨g, s, begins, space⟩ := directive_eq org
          rw [lineStep_org begins space] at step
          split_ifs at step with below
          · cases step
            refine ⟨Good.other t4 (by simp [begins]) _ _, ?_⟩
            have padded := packs.pad (atoi (skipSpace (g :: s)) - o.offset).toNat
            have address : ((img.length + (atoi (skipSpace (g :: s)) - o.offset).toNat : ℕ) : ℤ) =
                atoi (skipSpace (g :: s)) := by
              rw [packs.offset] at below ⊢
              omega
            rw [address] at padded
            exact ⟨_, padded⟩
        | false =>
          rw [lineStep_ok_iff blank t4 comment org] at step
          exact packs.fine_opcode fine t4 buf step

/-! ## Files -/

/-- What the memory holds behind lines. -/
def loaded (mem : List Char) (lines : List (List Char)) : List Char := lines.foldl load mem

/-- The run up to a line, the line, and the run behind it. -/
theorem assemble_split {buf : ℕ → Char} {line : List Char} {after before : List (List Char)} :
    ∀ {mem : List Char} {o last : Out},
      assemble buf mem (before ++ line :: after) o = .ok last ↔ ∃ o₁ o₂,
        assemble buf mem before o = .ok o₁ ∧
          lineStep buf (loaded mem (before ++ [line])) o₁ = .ok o₂ ∧
            assemble buf (loaded mem (before ++ [line])) after o₂ = .ok last := by
  induction before with
  | nil =>
    intro mem o last
    change assemble buf mem (line :: after) o = .ok last ↔ ∃ o₁ o₂,
      assemble buf mem [] o = .ok o₁ ∧ lineStep buf (load mem line) o₁ = .ok o₂ ∧
        assemble buf (load mem line) after o₂ = .ok last
    cases eq : lineStep buf (load mem line) o with
    | error _ => simp [assemble, eq, bind, Except.bind]
    | ok o₂ => simp [assemble, eq, bind, Except.bind]
  | cons l before ih =>
    intro mem o last
    cases eq : lineStep buf (load mem l) o with
    | error _ => simp [assemble, eq, bind, Except.bind]
    | ok o₂ => simpa [assemble, eq, bind, Except.bind, loaded] using @ih (load mem l) o₂ last

/-- A run that stops, stops at a line that it has come to. -/
theorem assemble_stops {buf : ℕ → Char} {lines : List (List Char)} : ∀ {mem : List Char} {o : Out},
    (∀ last, assemble buf mem lines o ≠ .ok last) → ∃ before line after o₁,
      lines = before ++ line :: after ∧ assemble buf mem before o = .ok o₁ ∧
        ∀ o₂, lineStep buf (loaded mem (before ++ [line])) o₁ ≠ .ok o₂ := by
  induction lines with
  | nil => exact fun {_ o} never => absurd rfl (never o)
  | cons line lines ih =>
    intro mem o never
    cases eq : lineStep buf (load mem line) o with
    | error _ =>
      refine ⟨[], line, lines, o, rfl, rfl, ?_⟩
      change ∀ o₂, lineStep buf (load mem line) o ≠ .ok o₂
      simp [eq]
    | ok o' =>
      have later : ∀ last, assemble buf (load mem line) lines o' ≠ .ok last := by
        intro last run
        refine never last ?_
        rw [assemble, eq]
        exact run
      obtain ⟨before, stop, after, o₁, split, run, stops⟩ := ih later
      refine ⟨line :: before, stop, after, o₁, by rw [split]; rfl, ?_, stops⟩
      rw [assemble, eq]
      exact run

/-- The string in the memory is that of the last line. -/
theorem cstr_loaded (mem : List Char) (before : List (List Char)) (line : List Char) :
    cstr (loaded mem (before ++ [line])) = cstr line := by
  rw [loaded, List.foldl_append]
  exact cstr_load _ line

/-- **Well-formed lines keep the image** as far as the run comes. -/
theorem Packs.run {buf : ℕ → Char} {lines : List (List Char)} : ∀ {mem : List Char} {o last : Out}
    {img : List ℕ}, Packs o img → (∀ line ∈ lines, Fine (cstr line)) →
      Cod5asm.assemble buf mem lines o = .ok last →
        ∃ bytes : List ℕ, Packs last (img ++ bytes) := by
  induction lines with
  | nil =>
    intro mem o last img packs _ run
    cases run
    refine ⟨[], ?_⟩
    rw [List.append_nil]
    exact packs
  | cons line lines ih =>
    intro mem o last img packs fine run
    obtain ⟨o₁, o₂, none, step, rest⟩ := (@assemble_split buf line lines [] mem o last).mp run
    cases none
    have here := fine line List.mem_cons_self
    rw [← cstr_loaded mem []] at here
    obtain ⟨_, bytes, packs'⟩ := packs.fine here buf step
    obtain ⟨bytes', final⟩ := ih packs' (fun l mem => fine l (List.mem_cons_of_mem _ mem)) rest
    rw [List.append_assoc] at final
    exact ⟨_, final⟩

/-- **Malformed sources**: a run that ends well has assembled every line of constants and every
immediate as it says just where all of them are well formed, unless it comes to a line that it
refuses. -/
theorem silent_iff (buf : ℕ → Char) (mem file : List Char) :
    (∀ words, main buf mem file = .ok words → ∀ before line after,
      fgets [] file = before ++ line :: after → ∃ o o', assemble buf mem before .start = .ok o ∧
        lineStep buf (loaded mem (before ++ [line])) o = .ok o' ∧ Good (cstr line) o o') ↔
    (∀ line ∈ fgets [] file, Fine (cstr line)) ∨ ∃ before line after o,
      fgets [] file = before ++ line :: after ∧ assemble buf mem before .start = .ok o ∧
        Refused (loaded mem (before ++ [line])) o.offset := by
  constructor
  · intro good
    by_cases ends : ∃ last, assemble buf mem (fgets [] file) .start = .ok last
    · obtain ⟨last, run⟩ := ends
      have words : main buf mem file = .ok last.flush := by
        rw [main, run]
        rfl
      refine .inl fun line here => ?_
      obtain ⟨before, after, split⟩ := List.append_of_mem here
      obtain ⟨o, o', _, _, t4, loads⟩ := good _ words before line after split
      refine ⟨fun found => ?_, fun found => (loads found).1⟩
      obtain ⟨cs, _, constants, _⟩ := t4 found
      exact ⟨cs, constants⟩
    · obtain ⟨before, line, after, o, split, run, stops⟩ :=
        assemble_stops (not_exists.mp ends)
      exact .inr ⟨before, line, after, o, split, run, (lineStep_stops buf _ o).mp stops⟩
  · intro condition words result before line after split
    have ends : ∃ last, assemble buf mem (fgets [] file) .start = .ok last := by
      unfold main at result
      cases run : assemble buf mem (fgets [] file) .start with
      | error _ =>
        rw [run] at result
        cases result
      | ok last => exact ⟨last, rfl⟩
    obtain ⟨last, run⟩ := ends
    rcases condition with fine | ⟨before', line', after', o, split', run', refused⟩
    · rw [split] at run fine
      obtain ⟨o, o', first, step, _⟩ := assemble_split.mp run
      obtain ⟨img, packs⟩ := Packs.start.run
        (fun l mem => fine l (List.mem_append_left _ mem)) first
      have here := fine line (List.mem_append_right _ List.mem_cons_self)
      rw [← cstr_loaded mem before line] at here
      have good := (packs.fine here buf step).1
      rw [cstr_loaded] at good
      exact ⟨o, o', first, step, good⟩
    · -- the run has not come to its end
      rw [split'] at run
      obtain ⟨o₁, o₂, first, step, _⟩ := assemble_split.mp run
      cases first.symm.trans run'
      exact absurd step ((lineStep_stops buf _ _).mpr refused o₂)

-- the last line has no newline: behind its NUL are the NULs of the name, and a space of the line
-- before
example : main (fun _ => ' ') [] ['.', 't', '4', ' ', ' ', '+', 'x', '\n', 'n', 'o', 'p'] =
    .ok [(0, 0xAA#32)] := by rfl

/-- A constant with a wrong character is left out, and the assembler goes on to its end. -/
theorem wrong_character_passes :
    main (fun _ => ' ') [] ['.', 't', '4', ' ', '+', 'x', '\n'] = .ok [] ∧
      ¬∀ (buf : ℕ → Char) (mem file : List Char) (words : List (ℕ × BitVec 32)),
        main buf mem file = .ok words → ∀ before line after,
          fgets [] file = before ++ line :: after →
            ∃ o o', assemble buf mem before .start = .ok o ∧
              lineStep buf (loaded mem (before ++ [line])) o = .ok o' ∧ Good (cstr line) o o' := by
  have result : main (fun _ => ' ') [] ['.', 't', '4', ' ', '+', 'x', '\n'] = .ok [] := rfl
  refine ⟨result, fun all => ?_⟩
  obtain ⟨o, o', first, step, good⟩ := all _ _ _ _ result [] _ [] rfl
  cases first
  have stays : lineStep (fun _ => ' ') (loaded [] [['.', 't', '4', ' ', '+', 'x', '\n']]) .start =
      .ok .start := rfl
  cases stays.symm.trans step
  obtain ⟨cs, img, constants, _, offset, _⟩ := good.t4 rfl
  have some := constants.some
  change 0 = 0 + cs.length at offset
  omega

end Teres.Tools.Cod5asm
