import Reaming.Proofs.PathData.Sketch

namespace Reaming.PathData

variable {α : Type}

def Item.isMove : Item α → Bool
  | .group _ g => g.isMove
  | .letter _ => false

def Item.draws : Item α → Bool
  | .group _ g => !g.isMove
  | .letter _ => false

def Item.isClose : Item α → Bool
  | .letter c => c.verb == .closePath
  | .group _ _ => false

/-- The first group of a moveto begins a subpath. -/
theorem isMove_of_head_groups (xs : List α) :
    ∀ g ∈ (groups .moveTo xs).head?, g.isMove = true := by
  rcases groups_moveTo_cases xs with ⟨_, hnil⟩ | ⟨_, p, gs, hgs, _⟩
  · rw [hnil]
    exact nofun
  · rw [hgs]
    rintro _ ⟨⟩
    rfl

namespace Sketch

variable [Scalar α]

end Sketch

namespace Sketch
variable [Scalar α]

end Sketch

end Reaming.PathData
