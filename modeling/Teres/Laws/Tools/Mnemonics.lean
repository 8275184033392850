import Mathlib.Data.List.Nodup
import Teres.Tools.Cod5asm

/-!
# The mnemonics that the assembler takes

`add_opcode` compares the line with a name as long as they agree, and then asks whether the line has
come to white space or a comment. Whether the name has come to its end it does not ask. So it takes
the first name that the token begins (`addOpcode_entry`), and a mnemonic cut short is taken for one.
-/

namespace Teres.Tools.Cod5asm

/-- White space, or a comment. -/
def isEnd (c : Char) : Bool := isspace c || c = ';'

/-- The text of a line up to the first white space or comment. -/
def token (line : List Char) : List Char := line.takeWhile fun c => !isEnd c

/-- What stands behind the token. -/
def behind (line : List Char) : List Char := line.dropWhile fun c => !isEnd c

/-- **A table of the shape of `ops`**: the names are distinct, none is empty (that ends the table),
and none has white space or a semicolon in it. -/
structure Shape (table : List Opcode) : Prop where
  distinct : (table.map Opcode.name).Nodup
  nonempty : ∀ op ∈ table, op.name ≠ []
  plain : ∀ op ∈ table, ∀ c ∈ op.name, isEnd c = false

/-- The entry that `add_opcode` takes. -/
def entry (line : List Char) : List Opcode → Option Opcode
  | [] => none
  | op :: table =>
    match strip line (tableBytes (op :: table)) with
    | none => none
    | some s => if s.head?.any isEnd then some op else entry line table

theorem entry_mem {line : List Char} {table : List Opcode} {op : Opcode}
    (found : entry line table = some op) : op ∈ table := by
  induction table with
  | nil => cases found
  | cons e table ih =>
    rw [entry] at found
    cases eq : strip line (tableBytes (e :: table)) with
    | none =>
      rw [eq] at found
      cases found
    | some s =>
      rw [eq] at found
      change (if s.head?.any isEnd = true then some e else _) = some op at found
      split_ifs at found with stops
      · cases found
        exact List.mem_cons_self
      · exact List.mem_cons_of_mem e (ih found)

/-- What `add_opcode` does with an entry. -/
def Opcode.gather (buf : ℕ → Char) (s : List Char) (o : Out) (op : Opcode) : Out × ℤ :=
  if op.flags % 2 = 1 then addOperand buf (cstr s) (addT4 op.t4 o).1 else ((addT4 op.t4 o).1, 0)

theorem token_cons_end {c : Char} (stops : isEnd c = true) (line : List Char) :
    token (c :: line) = [] := by
  simp [token, stops]

theorem token_cons {c : Char} (goes : isEnd c = false) (line : List Char) :
    token (c :: line) = c :: token line := by
  simp [token, goes]

theorem behind_cons_end {c : Char} (stops : isEnd c = true) (line : List Char) :
    behind (c :: line) = c :: line := by
  simp [behind, stops]

theorem behind_cons {c : Char} (goes : isEnd c = false) (line : List Char) :
    behind (c :: line) = behind line := by
  simp [behind, goes]

/-- The bytes of a table begin with its first name and a NUL. -/
theorem tableBytes_cons (op : Opcode) (table : List Opcode) : ∃ more,
    tableBytes (op :: table) = op.name ++ '\x00' :: more := by
  have own : op.name ++ ['\x00'] <+: op.bytes := by
    rw [Opcode.bytes, field, List.append_assoc, List.cons_append, List.prefix_append_right_inj]
    exact List.cons_prefix_cons.mpr ⟨rfl, List.nil_prefix⟩
  obtain ⟨rest, eq⟩ := own
  refine ⟨rest ++ tableBytes table, ?_⟩
  rw [tableBytes, List.flatMap_cons, ← eq]
  simp only [tableBytes, List.append_assoc, List.cons_append, List.nil_append]

theorem cstr_cons {c : Char} (goes : c ≠ '\x00') (line : List Char) :
    cstr (c :: line) = c :: cstr line := by
  simp [cstr, goes]

/-- What comes first in a line with an end in its string is no NUL. -/
theorem notNul {c : Char} {line : List Char} (ends : ∃ x ∈ cstr (c :: line), isEnd x = true) :
    c ≠ '\x00' := by
  rintro rfl
  obtain ⟨x, mem, _⟩ := ends
  cases mem

/-- The end is in what follows, if it does not come first. -/
theorem ends_later {c : Char} {line : List Char} (ends : ∃ x ∈ cstr (c :: line), isEnd x = true)
    (goes : isEnd c = false) : ∃ x ∈ cstr line, isEnd x = true := by
  obtain ⟨x, mem, stops⟩ := ends
  rw [cstr_cons (notNul ⟨x, mem, stops⟩)] at mem
  rcases List.mem_cons.mp mem with rfl | mem
  · exact absurd (goes.symm.trans stops) Bool.false_ne_true
  · exact ⟨x, mem, stops⟩

/-- The token is in the string, where the string has an end of it. -/
theorem token_cstr {line : List Char} (ends : ∃ c ∈ cstr line, isEnd c = true) :
    token (cstr line) = token line := by
  induction line with
  | nil => rfl
  | cons c line ih =>
    have some : c ≠ '\x00' := notNul ends
    cases stops : isEnd c with
    | true => rw [cstr_cons some, token_cons_end stops, token_cons_end stops]
    | false => rw [cstr_cons some, token_cons stops, token_cons stops, ih (ends_later ends stops)]

/-- So is what stands behind it. -/
theorem behind_cstr {line : List Char} (ends : ∃ c ∈ cstr line, isEnd c = true) :
    cstr (behind line) = behind (cstr line) := by
  induction line with
  | nil => rfl
  | cons c line ih =>
    have some : c ≠ '\x00' := notNul ends
    cases stops : isEnd c with
    | true => rw [behind_cons_end stops, cstr_cons some, behind_cons_end stops]
    | false =>
      rw [behind_cons stops, ih (ends_later ends stops), cstr_cons some, behind_cons stops]

/-- **The comparison with one name**: it stays on the line, and it comes to white space or a comment
just where the token begins the name. -/
theorem strip_name (more : List Char) {line : List Char} : ∀ {name : List Char},
    (∃ c ∈ cstr line, isEnd c = true) → (∀ c ∈ name, isEnd c = false) →
      ∃ s, strip line (name ++ '\x00' :: more) = some s ∧
        (s.head?.any isEnd = true ↔ token line <+: name) ∧
          (token line <+: name → s = behind line) := by
  induction line with
  | nil =>
    rintro name ⟨c, mem, _⟩
    cases mem
  | cons c line ih =>
    intro name ends plain
    have some : c ≠ '\x00' := notNul ends
    cases name with
    | nil =>
      refine ⟨c :: line, ?_, ?_, ?_⟩
      · rw [List.nil_append, strip, if_neg some]
      · cases stops : isEnd c with
        | true => simp [token_cons_end stops, stops]
        | false => simp [token_cons stops, stops]
      · intro none
        cases stops : isEnd c with
        | true => exact (behind_cons_end stops line).symm
        | false => simp [token_cons stops] at none
    | cons d name =>
      by_cases same : c = d
      · subst same
        have goes : isEnd c = false := plain c List.mem_cons_self
        obtain ⟨s, eq, head, rest⟩ :=
          ih (ends_later ends goes) fun x mem => plain x (List.mem_cons_of_mem c mem)
        refine ⟨s, ?_, ?_, ?_⟩
        · rw [List.cons_append, strip, if_pos rfl, eq]
        · rw [token_cons goes, List.prefix_cons_inj]
          exact head
        · rw [token_cons goes, List.prefix_cons_inj, behind_cons goes]
          exact rest
      · refine ⟨c :: line, by rw [List.cons_append, strip, if_neg same], ?_, ?_⟩
        · cases stops : isEnd c with
          | true => simp [token_cons_end stops, stops]
          | false => simp [token_cons stops, stops, same]
        · intro begins
          cases stops : isEnd c with
          | true => exact (behind_cons_end stops line).symm
          | false => simp [token_cons stops, same] at begins

/-- The entry that is taken is the first whose name begins with the token. -/
theorem entry_eq {line : List Char} (ends : ∃ c ∈ cstr line, isEnd c = true)
    {table : List Opcode} (plain : ∀ op ∈ table, ∀ c ∈ op.name, isEnd c = false) :
    entry line table = table.find? fun op => (token line).isPrefixOf op.name := by
  induction table with
  | nil => rfl
  | cons op table ih =>
    obtain ⟨more, bytes⟩ := tableBytes_cons op table
    obtain ⟨s, eq, head, _⟩ := strip_name more ends (plain op List.mem_cons_self)
    have test : s.head?.any isEnd = (token line).isPrefixOf op.name := by
      rw [Bool.eq_iff_iff, head, List.isPrefixOf_iff_prefix]
    have passed := ih fun e mem => plain e (List.mem_cons_of_mem op mem)
    rw [entry, bytes, eq, List.find?_cons, ← test]
    change (if s.head?.any isEnd = true then _ else _) = _
    cases s.head?.any isEnd with
    | true => rfl
    | false => exact passed

/-- One round of the loop of `add_opcode`. -/
theorem addOpcode_cons (buf : ℕ → Char) (line : List Char) (o : Out) (op : Opcode)
    (table : List Opcode) : addOpcode buf line o (op :: table) =
      (strip line (tableBytes (op :: table))).elim none fun s =>
        if s.head?.any isEnd = true then some (op.gather buf s o)
        else addOpcode buf line o table := by
  rw [addOpcode]
  cases strip line (tableBytes (op :: table)) with
  | none => rfl
  | some s =>
    change (if s.head?.any isEnd = true then _ else _) =
      if s.head?.any isEnd = true then some (op.gather buf s o) else _
    unfold Opcode.gather
    split_ifs <;> rfl

/-- **`add_opcode` gathers the entry it takes**, and without one it fails. It never reads behind the
end of a line that has one. -/
theorem addOpcode_entry {table : List Opcode}
    (plain : ∀ op ∈ table, ∀ c ∈ op.name, isEnd c = false) {line : List Char}
    (ends : ∃ c ∈ cstr line, isEnd c = true) (buf : ℕ → Char) (o : Out) :
    addOpcode buf line o table =
      some ((entry line table).elim (o, -1) (Opcode.gather buf (behind line) o)) := by
  induction table with
  | nil => rfl
  | cons op table ih =>
    obtain ⟨more, bytes⟩ := tableBytes_cons op table
    obtain ⟨s, eq, head, rest⟩ := strip_name more ends (plain op List.mem_cons_self)
    have passed := ih fun e mem => plain e (List.mem_cons_of_mem op mem)
    rw [addOpcode_cons, entry, bytes, eq, Option.elim_some]
    change _ = some (Option.elim (if s.head?.any isEnd = true then _ else _) _ _)
    cases found : s.head?.any isEnd with
    | true => rw [if_pos rfl, if_pos rfl, rest (head.mp found), Option.elim_some]
    | false =>
      rw [if_neg Bool.false_ne_true, if_neg Bool.false_ne_true]
      exact passed

/-- **The mnemonics are told apart** just where every name that begins with the token is the token,
or has the token in front of it in the table. -/
theorem recognised_iff {table : List Opcode} (shape : Shape table) {line : List Char}
    (ends : '\n' ∈ cstr line) (buf : ℕ → Char) (o : Out) :
    addOpcode buf line o table =
        some ((entry line table).elim (o, -1) (Opcode.gather buf (behind line) o)) ∧
      ((∀ e ∈ table, (entry line table = some e ↔ token line = e.name)) ↔
        ∀ before e after, table = before ++ e :: after → token line <+: e.name →
          ∃ e' ∈ before ++ [e], e'.name = token line) := by
  have stops : ∃ c ∈ cstr line, isEnd c = true := ⟨'\n', ends, rfl⟩
  have taken := entry_eq stops shape.plain
  refine ⟨addOpcode_entry shape.plain stops buf o, fun exact before e after eq begins => ?_,
    fun told e mem => ?_⟩
  · have here : e ∈ before ++ [e] := List.mem_append_right before List.mem_cons_self
    have split : table = (before ++ [e]) ++ after := by simp [eq]
    have found : ((before ++ [e]).find? fun op => (token line).isPrefixOf op.name).isSome := by
      rw [List.find?_isSome]
      exact ⟨e, here, List.isPrefixOf_iff_prefix.mpr begins⟩
    obtain ⟨e', first⟩ := Option.isSome_iff_exists.mp found
    have mem : e' ∈ before ++ [e] := List.mem_of_find?_eq_some first
    rw [split, List.find?_append, first] at taken
    have named := (exact e' (split ▸ List.mem_append_left after mem)).mp (split ▸ taken)
    exact ⟨e', mem, named.symm⟩
  · have name {e : Opcode} (found : entry line table = some e) : e.name = token line := by
      rw [taken] at found
      obtain ⟨here, before, after, eq, none⟩ := List.find?_eq_some_iff_append.mp found
      obtain ⟨e', mem', named⟩ := told before e after eq (List.isPrefixOf_iff_prefix.mp here)
      rcases List.mem_append.mp mem' with earlier | last
      · have passed := none e' earlier
        have begins : (token line).isPrefixOf e'.name = true :=
          List.isPrefixOf_iff_prefix.mpr (named ▸ List.prefix_rfl)
        rw [begins] at passed
        cases passed
      · cases List.mem_singleton.mp last
        exact named
    refine ⟨fun found => (name found).symm, fun same => ?_⟩
    have found : (entry line table).isSome := by
      rw [taken, List.find?_isSome]
      exact ⟨e, mem, List.isPrefixOf_iff_prefix.mpr (same ▸ List.prefix_rfl)⟩
    obtain ⟨e', first⟩ := Option.isSome_iff_exists.mp found
    have mem' : e' ∈ table := List.mem_of_find?_eq_some (taken.symm.trans first)
    have equal : e' = e :=
      List.inj_on_of_nodup_map shape.distinct mem' mem ((name first).trans same)
    rw [first, equal]

theorem ops_shape : Shape ops where
  distinct := by decide
  nonempty := by decide
  plain := by
    -- as a test of the characters there are, not of every character
    have all : (ops.all fun op => op.name.all fun c => !isEnd c) = true := by decide
    simpa only [List.all_eq_true, Bool.not_eq_true'] using all

/-- `pushr`, on the table of the assembler: `push` stands in front of it, and is not taken. -/
theorem recognised_iff_pushr :
    addOpcode (fun _ => ' ') ['p', 'u', 's', 'h', 'r', '\n'] ⟨0, 0#32, [], []⟩ ops =
        some ((entry ['p', 'u', 's', 'h', 'r', '\n'] ops).elim (⟨0, 0#32, [], []⟩, -1)
          (Opcode.gather (fun _ => ' ') (behind ['p', 'u', 's', 'h', 'r', '\n'])
            ⟨0, 0#32, [], []⟩)) ∧
      ((∀ e ∈ ops, (entry ['p', 'u', 's', 'h', 'r', '\n'] ops = some e ↔
          token ['p', 'u', 's', 'h', 'r', '\n'] = e.name)) ↔
        ∀ before e after, ops = before ++ e :: after →
          token ['p', 'u', 's', 'h', 'r', '\n'] <+: e.name →
            ∃ e' ∈ before ++ [e], e'.name = token ['p', 'u', 's', 'h', 'r', '\n']) :=
  recognised_iff ops_shape (by decide) (fun _ => ' ') ⟨0, 0#32, [], []⟩

/-- `pus` is assembled as `push`. -/
theorem pus_taken :
    (addOpcode (fun _ => ' ') ['p', 'u', 's', '\n'] ⟨0, 0#32, [], []⟩ ops).map Prod.snd = some 0 ∧
      ¬∀ table, Shape table → ∀ line, '\n' ∈ cstr line → ∀ e ∈ table,
        (entry line table = some e ↔ token line = e.name) := by
  refine ⟨rfl, fun all => ?_⟩
  have mem : (⟨['p', 'u', 's', 'h'], dashes, 0⟩ : Opcode) ∈ ops := by simp [ops]
  have name := (all ops ops_shape ['p', 'u', 's', '\n'] (by decide) _ mem).mp rfl
  revert name
  decide

end Teres.Tools.Cod5asm
