import Reaming.Json.Geometry
import Reaming.Preview
import Reaming.Toolpath.Program

namespace Reaming

open Json

namespace Vertex

def toJson (v : Vertex Float) : Json :=
  record
    [("position", v.position.toJson), ("arc_length_from_previous", ofFloat v.arcLength),
      ("is_path_start", .bool v.isStart), ("is_path_end", .bool v.isEnd),
      ("selected", .bool v.selected)]

def ofJson? (v : Json) : Option (Vertex Float) := do
  match ← fields?
      ["position", "arc_length_from_previous", "is_path_start", "is_path_end", "selected"] v with
  | [position, arcLength, isStart, isEnd, selected] =>
    return {
      position := ← required? Point.ofJson? position
      arcLength := ← required? float? arcLength
      isStart := ← required? bool? isStart
      isEnd := ← required? bool? isEnd
      selected := ← required? bool? selected }
  | _ => none

end Vertex

def programJson (lines : List String) : Json :=
  record [("lines", .array (lines.map ofString))]

namespace Preview

def toJson (v : Preview Float) : Json :=
  record [("point_size", ofFloat v.pointSize), ("visualization_scale", ofFloat v.scale)]

def ofJson? (v : Json) : Option (Preview Float) := do
  match ← fields? ["point_size", "visualization_scale"] v with
  | [pointSize, scale] => return ⟨← required? float? pointSize, ← required? float? scale⟩
  | _ => none

end Preview

namespace CutBehavior

def name : CutBehavior → String
  | .line => "Line"
  | .table => "Table"

def ofName? : String → Option CutBehavior
  | "Line" => some .line
  | "Table" => some .table
  | _ => none

theorem ofName?_name (b : CutBehavior) : ofName? b.name = some b := by
  cases b <;> rfl

def ofJson? (v : Json) : Option CutBehavior := (plainChoice? v).bind ofName?

end CutBehavior

namespace Config

def toJson (c : Config) : Json :=
  record
    [("safe_z", ofFloat c.safeZ), ("line_height", ofFloat c.lineHeight),
      ("line_width", ofFloat c.lineWidth), ("cut_height", ofFloat c.cutHeight),
      ("width_offset", ofFloat c.widthOffset), ("cut_behavior", ofString c.cutBehavior.name),
      ("cut_at_end", .bool c.cutAtEnd), ("prologue", ofString c.prologue),
      ("epilogue", ofString c.epilogue)]

/-- A configuration has all its fields but the program texts, which are empty when missing. -/
def ofJson? (v : Json) : Option Config := do
  match ← fields?
      ["safe_z", "line_height", "line_width", "cut_height", "width_offset", "cut_behavior",
        "cut_at_end", "prologue", "epilogue"] v with
  | [safeZ, lineHeight, lineWidth, cutHeight, widthOffset, behavior, cutAtEnd, prologue,
      epilogue] =>
    return {
      safeZ := ← required? float? safeZ
      lineHeight := ← required? float? lineHeight
      lineWidth := ← required? float? lineWidth
      cutHeight := ← required? float? cutHeight
      widthOffset := ← required? float? widthOffset
      cutBehavior := ← required? CutBehavior.ofJson? behavior
      cutAtEnd := ← required? bool? cutAtEnd
      prologue := ← optional? "" string? prologue
      epilogue := ← optional? "" string? epilogue }
  | _ => none

end Config

end Reaming
