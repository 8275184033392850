import Mathlib.Data.Fintype.Card
import Mathlib.Logic.Relation

/-!
# Descending in a finite graph

On finitely many points, a point from which no cycle is reachable is accessible: every walk from it
ends. The two lemmas
are the two directions of the equivalence.
-/

namespace Teres.Descent

open Relation

variable {α : Type*} {r : α → α → Prop}

/-- A walk from an accessible point meets no cycle. -/
theorem not_cycle_of_acc {t : α} (h : Acc (flip r) t) {c : α} (reach : ReflTransGen r t c) :
    ¬ TransGen r c c := by
  induction h with
  | intro t _ ih =>
    intro cycle
    rcases reach.cases_head with rfl | ⟨y, step, reach⟩
    · obtain ⟨y, step, back⟩ := TransGen.head'_iff.mp cycle
      exact ih y step back cycle
    · exact ih y step reach cycle

/-- Without a reachable cycle, every walk ends. -/
theorem acc_of_not_cycle [Finite α] {t : α}
    (h : ∀ c, ReflTransGen r t c → ¬ TransGen r c c) : Acc (flip r) t := by
  let below (x y : α) : Prop := ReflTransGen r t y ∧ TransGen r y x
  have transitive : IsTrans α below := ⟨fun x y z xy yz => ⟨yz.1, yz.2.trans xy.2⟩⟩
  have irreflexive : Std.Irrefl below := ⟨fun x xx => h x xx.1 xx.2⟩
  have wf : WellFounded below := Finite.wellFounded_of_trans_of_irrefl below
  have walk : ∀ x, ReflTransGen r t x → Acc (flip r) x := fun x => by
    induction wf.apply x with
    | intro x _ ih =>
      intro reach
      exact Acc.intro x fun y step => ih y ⟨reach, .single step⟩ (reach.tail step)
  exact walk t .refl

end Teres.Descent
