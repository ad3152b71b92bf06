import InodeBridge.Proofs.Path.Joining

/-! # Paths within and below others

A path is within another one if it has the steps of that one first, and below it if there are more.
-/
namespace InodeBridge

/-- A path with the steps of another one first. -/
def Path.Within (p base : Path) : Prop := base.components <+: p.components

/-- A path with the steps of another one first, and more after them. -/
def Path.Below (p base : Path) : Prop := p.Within base ∧ p.components ≠ base.components

instance (p base : Path) : Decidable (p.Within base) := inferInstanceAs (Decidable (_ <+: _))

instance (p base : Path) : Decidable (p.Below base) := inferInstanceAs (Decidable (_ ∧ _))

namespace Path

variable {p q base : Path}

@[refl] theorem within_refl (p : Path) : p.Within p := List.prefix_rfl

theorem Within.trans (hp : p.Within q) (hq : q.Within base) : p.Within base :=
  List.IsPrefix.trans hq hp

theorem Within.child (h : p.Within base) {name : Name} (hname : name.isEntry = true) :
    (p.child name).Below base := by
  rw [Below, Within, components_child p hname]
  refine ⟨List.IsPrefix.trans h (List.prefix_append _ _), fun heq => ?_⟩
  have hlength := h.length_le
  rw [← heq, List.length_append, List.length_singleton] at hlength
  omega

theorem Within.below (hp : p.Within q) (hq : q.Below base) : p.Below base := by
  refine ⟨hp.trans hq.1, fun heq => hq.2 ?_⟩
  have hle : q.components <+: base.components := heq ▸ hp
  exact (List.IsPrefix.eq_of_length_le hle hq.1.length_le)

theorem Below.components_ne_nil (h : p.Below base) : p.components ≠ [] := by
  intro hnil
  have hbase := h.1
  rw [Within, hnil, List.prefix_nil] at hbase
  exact h.2 (hnil.trans hbase.symm)

end Path

end InodeBridge
